import TeachLang.Proofs.JavaNames
import TeachLang.Proofs.Parts
import TeachLang.Proofs.Slots

/-!
# What is accepted can be emitted

Checking gives every name of a canonical tree a name in Java, and rejects most of what the operators
of Java would tear apart: a comparison of comparisons has no type, and only names and calls have
members. What is left is `OR` on the left of `AND`, which `Expr.Emittable` allows.
-/

namespace TeachLang

variable {c : Checker}

/-! ## Powers -/

namespace Operator

/-- What is not weaker in the language is not weaker in Java either, comparisons of comparisons and
`OR` on the left of `AND` apart. -/
theorem javaPower_le {operator left : Operator} (h : ¬ left.power < operator.power)
    (hcomparison : operator.isComparison → ¬ left.isComparison) :
    Java.power operator ≤ Java.power left ∨ operator = .and ∧ left = .or := by
  revert h hcomparison
  cases operator <;> cases left <;> decide

theorem javaPower_lt {operator right : Operator} (h : operator.power < right.power) :
    Java.power operator < Java.power right := by
  revert h
  cases operator <;> cases right <;> decide

/-- Only what has an order is compared, and truth values have none. -/
theorem not_isComparison_of_result? {operator left : Operator} {a b a' b' ty : Ty}
    (h : operator.result? a b = some ty) (hleft : left.result? a' b' = some a)
    (ho : operator.isComparison) : ¬ left.isComparison := by
  intro hcomparison
  obtain rfl := result?_comparison hcomparison hleft
  have htable : (if Ty.comparable.isAssignable .boolean && Ty.comparable.isAssignable b then
      some Ty.boolean else none) = some ty := by
    cases operator <;> first | exact h | cases ho
  cases htable

end Operator

/-! ## Expressions -/

namespace Expr

/-- Whether an expression can be read from a text: its words tell its shape, and the names among
them are names. -/
structure Legible (e : Expr) : Prop where
  /-- its shape -/
  canonical : e.Canonical
  /-- its names -/
  names : Word.AllNames e.words

theorem javaPower_bare (e : Expr) : e.bare.javaPower = e.javaPower := by cases e <;> rfl

theorem isOr_bare (e : Expr) : e.bare.isOr = e.isOr := by
  cases e with
  | binary operator => cases operator <;> rfl
  | _ => rfl

theorem isAccess_bare (e : Expr) : e.bare.isAccess = e.isAccess := by cases e <;> rfl

theorem isCall_bare (e : Expr) : e.bare.isCall = e.isCall := by cases e <;> rfl

/-- What is neither a name nor a call has a built-in type. -/
theorem ty_mem_builtins_of_check {e : Expr} {ty : Ty} (h : (e.check c).verdict = .ok ty)
    (he : (e.isAccess || e.isCall) = false) : ty ∈ Ty.builtins := by
  have hbinary : ∀ {operator left right held span ty},
      ((binary operator left right held span).check c).verdict = .ok ty → ty ∈ Ty.builtins := by
    intro operator left right held span ty h
    obtain ⟨a, b, -, -, hresult, -⟩ := check_binary_ok h
    exact Operator.result?_mem_builtins hresult
  cases e with
  | literal value held span =>
    obtain ⟨rfl, -⟩ := check_literal_ok h
    exact value.ty_mem_builtins
  | group inner held span =>
    obtain ⟨hisBinary, hinner, -⟩ := check_group_ok h
    cases inner with
    | binary => exact hbinary hinner
    | _ => cases hisBinary
  | binary => exact hbinary h
  | _ => cases he

/-- What has members is a name or a call. -/
theorem receiver_of_check {e : Expr} {ty : Ty} (h : (e.check c).verdict = .ok ty)
    (hty : ¬ ty.Memberless) : (e.isAccess || e.isCall) = true := by
  by_contra he
  exact hty (Ty.memberless_of_mem_builtins
    (ty_mem_builtins_of_check h (Bool.eq_false_iff.mpr he)))

theorem javaPower_check (c : Checker) (e : Expr) : (e.check c).tree.javaPower = e.javaPower := by
  rw [← javaPower_bare, bare_check, javaPower_bare]

theorem isOr_check (c : Checker) (e : Expr) : (e.check c).tree.isOr = e.isOr := by
  rw [← isOr_bare, bare_check, isOr_bare]

theorem hasMembers_check (c : Checker) (e : Expr) :
    ((e.check c).tree.isAccess || (e.check c).tree.isCall) = (e.isAccess || e.isCall) := by
  rw [← isAccess_bare, ← isCall_bare, bare_check, isAccess_bare, isCall_bare]

/-- Among the operands of an operator that are accepted only `OR` is ever weaker in Java. -/
theorem javaPower_of_check {operator : Operator} {left right : Expr} {a b ty : Ty}
    (hleft : ¬ left.power < operator.power) (hright : operator.power < right.power)
    (ha : (left.check c).verdict = .ok a) (hresult : operator.result? a b = some ty) :
    (Java.power operator ≤ left.javaPower ∨ operator = .and ∧ left.isOr = true) ∧
      Java.power operator < right.javaPower := by
  have hseven := Java.power_lt_seven operator
  refine ⟨?_, ?_⟩
  · cases left with
    | binary inner l r held span =>
      obtain ⟨_, _, -, -, hinner, -⟩ := check_binary_ok ha
      rcases Operator.javaPower_le hleft (Operator.not_isComparison_of_result? hresult hinner)
        with hle | ⟨hand, rfl⟩
      · exact .inl hle
      · exact .inr ⟨hand, rfl⟩
    | _ => exact .inl (Nat.le_of_lt hseven)
  · cases right with
    | binary inner l r held span => exact Operator.javaPower_lt hright
    | _ => exact hseven

theorem allNames_more {es : List Expr} (h : Word.AllNames (argumentWords es)) :
    Word.AllNames (moreWords es) := by
  intro n hn
  cases es with
  | nil => cases hn
  | cons e es =>
    rcases List.mem_cons.mp hn with hcomma | hn
    · cases hcomma
    · refine h n (List.mem_cons_of_mem _ ?_)
      rw [← List.append_assoc]
      exact List.mem_append_left _ hn

mutual

/-- What is accepted can be emitted, and the members of its values have names. -/
theorem emittable_of_check (hc : c.Named) : ∀ {e : Expr} {ty : Ty}, e.Canonical →
    Word.AllNames e.words → (e.check c).verdict = .ok ty →
    (e.check c).tree.Emittable ∧ ty.Named
  | .literal value held span, ty, he, _, h => by
    obtain ⟨rfl, htree⟩ := check_literal_ok h
    rw [htree]
    exact ⟨⟨rfl, he⟩, Ty.named_of_mem_builtins value.ty_mem_builtins⟩
  | .group inner held span, ty, he, hn, h => by
    obtain ⟨-, hfound, htree⟩ := check_group_ok h
    rw [htree]
    have hcanonical : inner.Canonical := he
    have hnames := (Word.allNames_append.mp (Word.allNames_cons hn)).1
    obtain ⟨hinner, hnamed⟩ := emittable_of_check hc hcanonical hnames hfound
    exact ⟨⟨rfl, hinner⟩, hnamed⟩
  | .binary operator left right held span, ty, ⟨hl, hr, hnotlt, hlt⟩, hn, h => by
    obtain ⟨a, b, ha, hb, hresult, htree⟩ := check_binary_ok h
    rw [htree]
    obtain ⟨hln, hrn⟩ := Word.allNames_append.mp hn
    -- checked operands are as strong as they were before
    have hpowers := javaPower_of_check hnotlt hlt ha hresult
    rw [← javaPower_check c, ← isOr_check c, ← javaPower_check c right] at hpowers
    exact ⟨⟨rfl, (emittable_of_check hc hl hln ha).1,
        (emittable_of_check hc hr (Word.allNames_cons hrn) hb).1, hpowers⟩,
      Ty.named_of_mem_builtins (Operator.result?_mem_builtins hresult)⟩
  | .name n held span, ty, _, hn, h => by
    obtain ⟨v, hlookup, rfl, htree⟩ := check_name_ok h
    have hnamed := hc.lookupVariable hlookup
    rw [htree]
    exact ⟨⟨v, rfl, Variable.Named.isPath hnamed hn.name⟩, hnamed.2.2⟩
  | .member receiver n held span, ty, ⟨he, _⟩, hn, h => by
    obtain ⟨owner, v, howner, hfield, rfl, htree⟩ := check_member_ok h
    rw [htree]
    obtain ⟨hrn, hn⟩ := Word.allNames_append.mp hn
    obtain ⟨hr, howned⟩ := emittable_of_check hc he hrn howner
    have hnamed := howned.field hfield
    have hmembers := receiver_of_check howner fun hnone => by
      rw [hnone.field?_eq_none] at hfield
      cases hfield
    rw [← hasMembers_check c] at hmembers
    exact ⟨⟨hr, hmembers, v, rfl, Variable.Named.isPath hnamed (Word.allNames_cons hn).name⟩,
      hnamed.2.2⟩
  | .call n arguments held span, ty, he, hn, h => by
    obtain ⟨tys, f, htys, hlookup, -, rfl, htree⟩ := check_call_ok h
    rw [htree]
    have hnamed := hc.lookupFunction hlookup
    have hargs := allEmittable_of_check hc he (allNames_more (Word.allNames_cons hn)) htys
    exact ⟨⟨hargs, f, rfl, Signature.Named.isPath hnamed hn.name⟩, hnamed.2.2⟩
  | .methodCall receiver n arguments held span, ty, ⟨he, _, hes⟩, hn, h => by
    obtain ⟨tys, owner, f, htys, howner, hmethod, -, -, rfl, htree⟩ := check_methodCall_ok h
    rw [htree]
    obtain ⟨hrn, hn⟩ := Word.allNames_append.mp hn
    have hn := Word.allNames_cons hn
    obtain ⟨hr, howned⟩ := emittable_of_check hc he hrn howner
    have hnamed := howned.method hmethod
    have hmembers := receiver_of_check howner fun hnone => by
      rw [hnone.method?_eq_none] at hmethod
      cases hmethod
    rw [← hasMembers_check c] at hmembers
    have hargs := allEmittable_of_check hc hes (allNames_more (Word.allNames_cons hn)) htys
    exact ⟨⟨hr, hmembers, hargs, f, rfl, Signature.Named.isPath hnamed hn.name⟩, hnamed.2.2⟩

theorem allEmittable_of_check (hc : c.Named) : ∀ {es : List Expr} {tys : List (Position × Ty)},
    AllCanonical es → Word.AllNames (moreWords es) →
    (checkArguments c es).verdict = .ok tys → AllEmittable (checkArguments c es).tree
  | [], tys, _, _, h => by
    rw [checkArguments]
    trivial
  | e :: es, tys, ⟨he, hes⟩, hn, h => by
    obtain ⟨ty, others, hty, hothers, -, htree⟩ := checkArguments_cons_ok h
    rw [htree]
    obtain ⟨hen, hmore⟩ := Word.allNames_append.mp (Word.allNames_cons hn)
    exact ⟨(emittable_of_check hc he hen hty).1, allEmittable_of_check hc hes hmore hothers⟩

end

theorem Legible.emittable {e : Expr} {ty : Ty} (he : e.Legible) (hc : c.Named)
    (h : (e.check c).verdict = .ok ty) : (e.check c).tree.Emittable :=
  (emittable_of_check hc he.canonical he.names h).1

end Expr

/-! ## Statements -/

namespace Checker.Named

theorem of_checkValue (hc : c.Named) {value : Option Expr} {found : Option (Position × Ty)}
    (hvalue : ∀ e ∈ value.toList, e.Legible) (h : (c.checkValue value).verdict = .ok found) :
    (∀ e ∈ (c.checkValue value).tree.toList, e.Emittable) ∧ ∀ ty ∈ found, ty.2.Named := by
  cases value with
  | none =>
    obtain rfl := Except.ok.inj h
    exact ⟨(fun e he => nomatch he), fun ty hty => nomatch hty⟩
  | some e =>
    obtain ⟨ty, hty, hfound⟩ := Checked.map_ok h
    obtain rfl := hfound
    have he := hvalue e (List.mem_singleton_self e)
    obtain ⟨hemittable, hnamed⟩ := Expr.emittable_of_check hc he.canonical he.names hty
    refine ⟨fun e' he' => ?_, fun ty' hty' => ?_⟩
    · obtain rfl := List.mem_singleton.mp he'
      exact hemittable
    · obtain rfl := Option.some.inj hty'
      exact hnamed

/-- A variable that is accepted has a value that can be emitted, and is declared. -/
theorem of_checkVariable {T : Type} (hc : c.Named) {name : String} {typeName : Option String}
    {value : Option Expr} {held : Option Variable} {node : Option Expr → Option Variable → T}
    {position : Position} {u : Unit} (hvalue : ∀ e ∈ value.toList, e.Legible)
    (h : (c.checkVariable name typeName value held position node).2.verdict = .ok u) :
    ∃ found slot, (c.checkVariable name typeName value held position node).2.tree =
        node found slot ∧ (∀ e ∈ found.toList, e.Emittable) ∧
      (c.checkVariable name typeName value held position node).1.Named := by
  obtain ⟨declared, found, ty, next, hdeclared, hfound, hty, hnext, heq⟩ :=
    Checker.checkVariable_ok h
  rw [heq]
  obtain ⟨hemittable, hnamed⟩ := hc.of_checkValue hvalue hfound
  refine ⟨_, _, rfl, hemittable, hc.declare (Variable.named_plain ?_ name) hnext⟩
  -- the type is the declared one, or else that of the value
  cases declared with
  | none =>
    cases found with
    | none => cases hty
    | some found =>
      obtain rfl := Except.ok.inj hty
      exact hnamed found rfl
  | some declared =>
    have hresolved := hc.resolveTys hdeclared declared rfl
    cases found with
    | none =>
      obtain rfl := Except.ok.inj hty
      exact hresolved
    | some found =>
      obtain ⟨_, -, hd⟩ := ok_of_bind hty
      obtain rfl := Except.ok.inj hd
      exact hresolved

end Checker.Named

namespace Stmt

mutual

/-- The expressions of a statement that is accepted can be emitted, and what it declares has a
name. -/
theorem emittable_of_check : ∀ {stmt : Stmt} {c : Checker} {u : Unit}, c.Named →
    (∀ e ∈ stmt.expressions, e.Legible) → (stmt.check c).2.verdict = .ok u →
    (∀ e ∈ (stmt.check c).2.tree.expressions, e.Emittable) ∧ (stmt.check c).1.Named
  | .expression e span, c, u, hc, he, h => by
    obtain ⟨ty, hty, heq⟩ := check_expression_ok h
    rw [heq]
    exact ⟨List.forall_mem_singleton.mpr ((List.forall_mem_singleton.mp he).emittable hc hty), hc⟩
  | .declaration name typeName value held span, c, u, hc, he, h => by
    rw [check] at h ⊢
    obtain ⟨found, slot, htree, hfound, hnext⟩ := hc.of_checkVariable he h
    rw [htree]
    exact ⟨hfound, hnext⟩
  | .assignment target value span, c, u, hc, he, h => by
    obtain ⟨a, b, -, ha, hb, -, heq⟩ := check_assignment_ok h
    rw [heq]
    obtain ⟨ht, hv⟩ := List.forall_mem_cons.mp he
    have hvalue := (List.forall_mem_singleton.mp hv).emittable hc hb
    have hvalues := List.forall_mem_singleton.mpr hvalue
    exact ⟨List.forall_mem_cons.mpr ⟨ht.emittable hc ha, hvalues⟩, hc⟩
  | .conditional condition thenBody elseBody span, c, u, hc, he, h => by
    obtain ⟨ty, hty, -, hthen, helse, heq⟩ := check_conditional_ok h
    rw [heq]
    obtain ⟨hfirst, hbodies⟩ := List.forall_mem_cons.mp he
    obtain ⟨hthens, helses⟩ := List.forall_mem_append.mp hbodies
    exact ⟨List.forall_mem_cons.mpr ⟨hfirst.emittable hc hty,
        List.forall_mem_append.mpr ⟨(allEmittable_of_checkAll hc.enter hthens hthen),
          allEmittable_of_checkAll hc.enter helses helse⟩⟩, hc⟩
  | .forEach name items body span, c, u, hc, he, h => by
    obtain ⟨ty, inner, hty, -, hinner, hloop, heq⟩ := check_forEach_ok h
    rw [heq]
    have hinteger : Ty.integer.Named := Ty.named_of_mem_builtins (by simp [Ty.builtins])
    have hnext := hc.enter.declare (Variable.named_plain hinteger name) hinner
    obtain ⟨hfirst, hbody⟩ := List.forall_mem_cons.mp he
    exact ⟨List.forall_mem_cons.mpr ⟨hfirst.emittable hc hty,
      allEmittable_of_checkAll hnext hbody hloop⟩, hc⟩
  | .whileLoop condition body span, c, u, hc, he, h => by
    obtain ⟨ty, hty, -, hloop, heq⟩ := check_whileLoop_ok h
    rw [heq]
    obtain ⟨hfirst, hbody⟩ := List.forall_mem_cons.mp he
    exact ⟨List.forall_mem_cons.mpr ⟨hfirst.emittable hc hty,
      allEmittable_of_checkAll hc.enter hbody hloop⟩, hc⟩
  | .returns value span, c, u, hc, he, h => by
    obtain ⟨ty, hty, heq⟩ := check_returns_ok h
    rw [heq]
    exact ⟨List.forall_mem_singleton.mpr ((List.forall_mem_singleton.mp he).emittable hc hty), hc⟩

theorem allEmittable_of_checkAll : ∀ {stmts : List Stmt} {c : Checker} {u : Unit}, c.Named →
    (∀ e ∈ allExpressions stmts, e.Legible) → (checkAll c stmts).2.verdict = .ok u →
    ∀ e ∈ allExpressions (checkAll c stmts).2.tree, e.Emittable
  | [], c, u, _, _, _ => by
    rw [checkAll]
    exact fun e he => nomatch he
  | stmt :: stmts, c, u, hc, he, h => by
    obtain ⟨hfirst, hothers, htree⟩ := checkAll_cons_ok h
    rw [htree]
    obtain ⟨hstmt, hstmts⟩ := List.forall_mem_append.mp he
    obtain ⟨hemittable, hnext⟩ := emittable_of_check hc hstmt hfirst
    exact List.forall_mem_append.mpr ⟨hemittable, allEmittable_of_checkAll hnext hstmts hothers⟩

end

end Stmt

/-! ## Programs -/

theorem Field.emittable_of_checkEach : ∀ {fields : List Field} {c : Checker} {u : Unit}, c.Named →
    (∀ e ∈ fields.flatMap fun f => f.value.toList, e.Legible) →
    (Program.checkEach Field.check c fields).2.verdict = .ok u →
    (∀ e ∈ (Program.checkEach Field.check c fields).2.tree.flatMap fun f => f.value.toList,
      e.Emittable) ∧ (Program.checkEach Field.check c fields).1.Named
  | [], c, u, hc, _, _ => ⟨(fun e he => nomatch he), hc⟩
  | f :: fields, c, u, hc, he, h => by
    obtain ⟨hfirst, hrest, hend, htrees⟩ := Program.checkEach_cons_ok h
    obtain ⟨hf, hfields⟩ := List.forall_mem_append.mp he
    obtain ⟨found, slot, htree, hfound, hnext⟩ :=
      hc.of_checkVariable hf (hfirst : (c.checkVariable ..).2.verdict = _)
    obtain ⟨hothers, hlast⟩ := emittable_of_checkEach hnext hfields hrest
    change (f.check c).2.tree = _ at htree
    rw [htrees, hend, htree]
    exact ⟨List.forall_mem_append.mpr ⟨hfound, hothers⟩, hlast⟩

namespace Method

theorem named_parameterVariables {m : Method} {f : Signature}
    (hf : ∀ parameter ∈ f.parameters, parameter.Named) :
    ∀ v ∈ m.parameterVariables f, v.Named := by
  intro v hv
  rw [parameterVariables, ← List.map_uncurry_zip_eq_zipWith] at hv
  obtain ⟨⟨parameter, ty⟩, hmem, rfl⟩ := List.mem_map.mp hv
  exact Variable.named_plain (hf ty (List.of_mem_zip hmem).2) parameter.1

theorem emittable_of_check {m : Method} {u : Unit} (hc : c.Named)
    (he : ∀ e ∈ Stmt.allExpressions m.body, e.Legible) (h : (m.check c).2.verdict = .ok u) :
    (∀ e ∈ Stmt.allExpressions (m.check c).2.tree.body, e.Emittable) ∧ (m.check c).1.Named := by
  obtain ⟨f, next, inner, hf, hnext, hinner, hbody, heq⟩ := check_ok h
  obtain ⟨hparameters, hnamed⟩ := hc.of_signature hf
  have hdeclared := hc.declareFunction hnamed hnext
  rw [heq]
  exact ⟨Stmt.allEmittable_of_checkAll
    (hdeclared.enter.declareAll (named_parameterVariables hparameters) hinner) he hbody, hdeclared⟩

theorem emittable_of_checkEach : ∀ {methods : List Method} {c : Checker} {u : Unit}, c.Named →
    (∀ e ∈ methods.flatMap fun m => Stmt.allExpressions m.body, e.Legible) →
    (Program.checkEach Method.check c methods).2.verdict = .ok u →
    ∀ e ∈ (Program.checkEach Method.check c methods).2.tree.flatMap
      fun m => Stmt.allExpressions m.body, e.Emittable
  | [], c, u, _, _, _ => fun e he => nomatch he
  | m :: methods, c, u, hc, he, h => by
    obtain ⟨hfirst, hrest, -, htrees⟩ := Program.checkEach_cons_ok h
    rw [htrees]
    obtain ⟨hm, hmethods⟩ := List.forall_mem_append.mp he
    obtain ⟨hbody, hnext⟩ := emittable_of_check hc hm hfirst
    exact List.forall_mem_append.mpr ⟨hbody, emittable_of_checkEach hnext hmethods hrest⟩

end Method

namespace Program

/-- The expressions of a program that is accepted can be emitted. -/
theorem emittable_of_check {p : Program} {u : Unit} (hc : c.Named)
    (he : ∀ e ∈ p.expressions, e.Legible) (h : (p.check c).2.verdict = .ok u) :
    ∀ e ∈ (p.check c).2.tree.expressions, e.Emittable := by
  obtain ⟨middle, last, fields, methods, hfields, hmethods, -, heq⟩ := check_ok h
  obtain ⟨hf, hm⟩ := List.forall_mem_append.mp he
  obtain ⟨hfs, hnext⟩ := Field.emittable_of_checkEach hc hf (congrArg (·.2.verdict) hfields)
  rw [hfields] at hfs hnext
  have hms := Method.emittable_of_checkEach hnext hm (congrArg (·.2.verdict) hmethods)
  rw [hmethods] at hms
  rw [heq]
  exact List.forall_mem_append.mpr ⟨hfs, hms⟩

end Program

end TeachLang
