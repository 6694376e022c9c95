import TeachLang.Proofs.Calls
import TeachLang.Proofs.Emission
import TeachLang.Proofs.JavaBlocks

/-!
# Emitted programs are well laid out

With the built-in types, all that an accepted program declares has a built-in type, and where the
program is read from a text it has a name that can be written in Java. `Program.java_well_laid` puts
this together with the layout of what can be emitted.
-/

namespace TeachLang

variable {Δ : Functions} {c : Checker} {Γ : Context}

/-- Programs come across the built-in types only, and nothing else is asked of them. -/
def Regime.builtin : Regime := { Restriction.free with known := (· ∈ Ty.builtins) }

/-- Programs that know the built-in types only never come across another one. -/
theorem Regime.closed_builtin : Regime.builtin.Closed :=
  closed_of_memberless id id Ty.memberless_of_mem_builtins

/-! ## Literals -/

/-- The literals of an expression are no matter of its slots. -/
theorem Expr.quotations_cleared (e : Expr) : e.cleared.quotations = e.quotations :=
  filterMap_parts_cleared (fun e => by cases e <;> rfl) e

theorem Program.quotations_cleared (p : Program) : p.cleared.quotations = p.quotations := by
  have hvalue : ∀ value : Option Expr, (value.map Expr.cleared).toList.flatMap Expr.quotations =
      value.toList.flatMap Expr.quotations := by
    intro value
    cases value <;> simp [Expr.quotations_cleared]
  simp [quotations, expressions, cleared, Field.cleared, Method.cleared, List.flatMap_map,
    List.flatMap_assoc, hvalue, Stmt.allExpressions_allCleared, Expr.quotations_cleared]

/-! ## Statements -/

namespace Stmt

/-- What comes behind an accepted statement sees what it declares. -/
theorem sees_of_check {stmt : Stmt} {u : Unit} (hc : c.Sees .builtin Δ Γ)
    (h : (stmt.check c).2.verdict = .ok u) : ∃ Γ, (stmt.check c).1.Sees .builtin Δ Γ :=
  ⟨_, (typed_of_check Regime.closed_builtin hc h (obeys_free .nil _)).2⟩

theorem allNames_else {stmts : List Stmt} (h : Word.AllNames (elseWords stmts)) :
    Word.AllNames (allWords stmts) := h.of_subset fun _ => mem_elseWords

mutual

/-- What an accepted statement declares has a built-in type, and a name if its words have names. -/
theorem bound_of_check : ∀ {stmt : Stmt} {c : Checker} {Γ : Context} {u : Unit},
    c.Sees .builtin Δ Γ → Word.AllNames stmt.words → (stmt.check c).2.verdict = .ok u →
    ∀ s ∈ (stmt.check c).2.tree.statements, s.Bound
  | .expression e span, c, Γ, u, hc, hn, h => by
    obtain ⟨ty, -, heq⟩ := check_expression_ok h
    rw [heq]
    exact List.forall_mem_singleton.mpr trivial
  | .declaration name typeName value held span, c, Γ, u, hc, hn, h => by
    rw [check] at h ⊢
    obtain ⟨first, ty, htree, -, htyped⟩ :=
      Checker.starts_of_checkVariable Regime.closed_builtin hc h
    rw [htree]
    have hknown := (htyped (Restriction.obeyedBy_free first)).2
    have hname := (Word.allNames_cons hn).name
    exact List.forall_mem_singleton.mpr ⟨ty, hknown, rfl, Java.isPath_of_isName hname⟩
  | .assignment target value span, c, Γ, u, hc, hn, h => by
    obtain ⟨a, b, -, -, -, -, heq⟩ := check_assignment_ok h
    rw [heq]
    exact List.forall_mem_singleton.mpr trivial
  | .conditional condition thenBody elseBody span, c, Γ, u, hc, hn, h => by
    obtain ⟨ty, -, -, hthen, helse, heq⟩ := check_conditional_ok h
    rw [heq]
    have hn := (Word.allNames_append.mp (Word.allNames_cons hn)).2
    obtain ⟨hthens, hn⟩ := Word.allNames_append.mp (Word.allNames_cons hn)
    have helses := allNames_else (Word.allNames_append.mp hn).1
    exact List.forall_mem_cons.mpr ⟨trivial, List.forall_mem_append.mpr
      ⟨allBound_of_checkAll hc.enter hthens hthen, allBound_of_checkAll hc.enter helses helse⟩⟩
  | .forEach name items body span, c, Γ, u, hc, hn, h => by
    obtain ⟨ty, inner, -, -, hinner, hloop, heq⟩ := check_forEach_ok h
    rw [heq]
    have hinteger : Regime.builtin.known .integer :=
      Regime.closed_builtin.known_builtin (by simp [Ty.builtins])
    have hsees := (hc.enter.declare hinteger hinner).1
    have hn := Word.allNames_cons hn
    have hname := Java.isPath_of_isName hn.name
    have hn := (Word.allNames_append.mp (Word.allNames_cons (Word.allNames_cons hn))).2
    have hbody := (Word.allNames_append.mp (Word.allNames_cons hn)).1
    exact List.forall_mem_cons.mpr ⟨hname, allBound_of_checkAll hsees hbody hloop⟩
  | .whileLoop condition body span, c, Γ, u, hc, hn, h => by
    obtain ⟨ty, -, -, hloop, heq⟩ := check_whileLoop_ok h
    rw [heq]
    have hn := (Word.allNames_append.mp (Word.allNames_cons hn)).2
    have hbody := (Word.allNames_append.mp (Word.allNames_cons hn)).1
    exact List.forall_mem_cons.mpr ⟨trivial, allBound_of_checkAll hc.enter hbody hloop⟩
  | .returns value span, c, Γ, u, hc, hn, h => by
    obtain ⟨ty, -, heq⟩ := check_returns_ok h
    rw [heq]
    exact List.forall_mem_singleton.mpr trivial

theorem allBound_of_checkAll : ∀ {stmts : List Stmt} {c : Checker} {Γ : Context} {u : Unit},
    c.Sees .builtin Δ Γ → Word.AllNames (allWords stmts) →
    (checkAll c stmts).2.verdict = .ok u →
    ∀ s ∈ allStatements (checkAll c stmts).2.tree, s.Bound
  | [], c, Γ, u, _, _, _ => by
    rw [checkAll]
    exact List.forall_mem_nil _
  | stmt :: stmts, c, Γ, u, hc, hn, h => by
    obtain ⟨hfirst, hothers, htree⟩ := checkAll_cons_ok h
    rw [htree]
    obtain ⟨hstmt, hstmts⟩ := Word.allNames_append.mp hn
    obtain ⟨Γ, hsees⟩ := sees_of_check hc hfirst
    exact List.forall_mem_append.mpr
      ⟨bound_of_check hc hstmt hfirst, allBound_of_checkAll hsees hstmts hothers⟩

end

end Stmt

/-! ## Programs -/

theorem Field.bound_of_checkEach : ∀ {fields : List Field} {c : Checker} {globals : Frame}
    {u : Unit}, c.AtRoot .builtin Δ globals → Word.AllNames (fields.flatMap words) →
    (Program.checkEach check c fields).2.verdict = .ok u →
    ∀ f ∈ (Program.checkEach check c fields).2.tree, f.Bound
  | [], c, globals, u, _, _, _ => List.forall_mem_nil _
  | f :: fields, c, globals, u, hc, hn, h => by
    obtain ⟨hfirst, hrest, -, htrees⟩ := Program.checkEach_cons_ok h
    obtain ⟨hf, hfields⟩ := Word.allNames_append.mp hn
    obtain ⟨first, ty, htree, hnext, htyped⟩ :=
      Checker.starts_of_checkVariable Regime.closed_builtin hc.toSees
        (hfirst : (c.checkVariable ..).2.verdict = _)
    change (f.check c).2.tree = _ at htree
    have hknown := (htyped (Restriction.obeyedBy_free first)).2
    have hname := Java.isPath_of_isName (Word.allNames_cons hf).name
    rw [htrees, htree]
    exact List.forall_mem_cons.mpr ⟨⟨ty, hknown, rfl, hname⟩,
      bound_of_checkEach (hc.declare hknown hnext).1 hfields hrest⟩

namespace Method

/-- Names of parameters are among the words of a method. -/
theorem mem_parametersWords : ∀ {first : String × String} {others : List (String × String)}
    {parameter : String × String}, parameter ∈ first :: others →
    (Kind.identifier, parameter.1) ∈ parametersWords first others
  | first, [], parameter, h => by
    obtain rfl := List.mem_singleton.mp h
    exact List.mem_cons_self ..
  | first, second :: others, parameter, h => by
    rcases List.mem_cons.mp h with rfl | h
    · exact List.mem_cons_self ..
    · exact List.mem_append_right _ (List.mem_cons_of_mem _ (mem_parametersWords h))

theorem mem_words {m : Method} {parameter : String × String} (h : parameter ∈ m.parameters) :
    (Kind.identifier, parameter.1) ∈ m.words := by
  cases hm : m.parameters with
  | nil =>
    rw [hm] at h
    cases h
  | cons first others =>
    rw [hm] at h
    simp [words, hm, parameterListWords, mem_parametersWords h]

theorem javaName_of_signature {m : Method} {f : Signature} (h : c.signature m = .ok f) :
    f.javaName = m.name := by
  obtain ⟨parameters, -, hrest⟩ := ok_of_bind h
  obtain ⟨result, -, hf⟩ := ok_of_bind hrest
  obtain rfl := Except.ok.inj hf
  rfl

/-- What an accepted method declares has built-in types, and names if its words have names. -/
theorem bound_of_check {globals : Frame} {m : Method} {u : Unit} (hc : c.AtRoot .builtin Δ globals)
    (hn : Word.AllNames m.words) (h : (m.check c).2.verdict = .ok u) :
    (m.check c).2.tree.Bound := by
  obtain ⟨f, next, inner, hf, hnext, hinner, hbody, heq⟩ := check_ok h
  obtain ⟨hname, hlength, hparameters, hresult⟩ := hc.toSees.of_signature Regime.closed_builtin hf
  obtain ⟨hroot, -⟩ := hc.declareFunction hparameters hresult hnext
  have hknown := m.ty_parameterVariables hparameters
  have hsees := (hroot.toSees.enter.declareAll hknown hinner).1
  have hbodyNames : Word.AllNames (Stmt.allWords m.body) :=
    hn.of_subset fun w hw => by simp [words, hw]
  have hpath : Java.IsPath f.javaName := by
    rw [javaName_of_signature hf]
    exact Java.isPath_of_isName (Word.allNames_cons hn).name
  rw [heq]
  exact ⟨⟨f, rfl, hpath, hresult, hparameters⟩,
    fun parameter hp => Java.isPath_of_isName (hn _ (mem_words hp)),
    Stmt.allBound_of_checkAll hsees hbodyNames hbody⟩

theorem bound_of_checkEach : ∀ {methods : List Method} {c : Checker} {Δ : Functions}
    {globals : Frame} {u : Unit}, c.AtRoot .builtin Δ globals →
    Word.AllNames (methods.flatMap words) →
    (Program.checkEach check c methods).2.verdict = .ok u →
    ∀ m ∈ (Program.checkEach check c methods).2.tree, m.Bound
  | [], c, Δ, globals, u, _, _, _ => List.forall_mem_nil _
  | m :: methods, c, Δ, globals, u, hc, hn, h => by
    obtain ⟨hfirst, hrest, -, htrees⟩ := Program.checkEach_cons_ok h
    obtain ⟨hm, hmethods⟩ := Word.allNames_append.mp hn
    obtain ⟨f, -, -, -, -, hroot, -⟩ :=
      typed_of_check Regime.closed_builtin hc hfirst (obeys_free _)
    rw [htrees]
    exact List.forall_mem_cons.mpr
      ⟨bound_of_check hc hm hfirst, bound_of_checkEach hroot hmethods hrest⟩

end Method

namespace Program

/-- All that an accepted program declares is bound, and all its expressions can be emitted, so it
can be printed. -/
theorem printable_of_check {globals : Frame} {p : Program} {u : Unit}
    (hc : c.AtRoot .builtin Δ globals) (hn : Word.AllNames p.words)
    (h : (p.check c).2.verdict = .ok u)
    (he : ∀ e ∈ (p.check c).2.tree.expressions, e.Emittable) : (p.check c).2.tree.Printable := by
  obtain ⟨middle, last, fields, methods, hfields, hmethods, -, heq⟩ := check_ok h
  obtain ⟨hfieldNames, hmethodNames⟩ := Word.allNames_append.mp hn
  have hbound := Field.bound_of_checkEach hc hfieldNames (congrArg (·.2.verdict) hfields)
  obtain ⟨last, -, hroot⟩ := Field.allTyped_of_checkEach Regime.closed_builtin hc
    (congrArg (·.2.verdict) hfields) fun f _ => Restriction.obeyedBy_free f.value
  rw [hfields] at hbound hroot
  have hbodies := Method.bound_of_checkEach hroot hmethodNames (congrArg (·.2.verdict) hmethods)
  rw [hmethods] at hbodies
  refine ⟨?_, ?_, he⟩
  · rw [heq]
    exact hbound
  · rw [heq]
    exact hbodies

/-- **Emitted Java is well laid out**. A program that is read from a text and accepted, where the
host supplies nothing but variables of built-in types, is emitted as Java. Brackets close in the
order in which they were opened, literals are the constants of the program and end on the line on
which they begin, and every line that is not empty is indented by four blanks for each brace that is
open before it, without the one that it closes first. -/
theorem java_well_laid {source file : String} {tokens : List Token} {p : Program}
    (htokens : Token.tokenize source file = .ok tokens) (hp : Program.parse tokens file = .ok p)
    {types : List (String × Ty)} (htypes : ∀ v ∈ types, v.2 ∈ Ty.builtins)
    (hc : Checker.ofHost .builtin types [] = .ok c) {u : Unit}
    (h : (p.check c).2.verdict = .ok u) :
    ∃ text, (p.check c).2.tree.java = .ok text ∧ Java.WellLaid text.toList p.quotations := by
  have hroot := Checker.atRoot_ofHost Regime.closed_builtin (fun ty hty => hty) htypes
    (List.forall_mem_nil _) hc
  have hnamed := Checker.Named.ofHost (fun ty hty => Ty.named_of_mem_builtins hty)
    (fun v hv => Ty.named_of_mem_builtins (htypes v hv)) (List.forall_mem_nil _) hc
  obtain ⟨-, hnames⟩ := names_of_parse htokens hp
  have hprintable := printable_of_check hroot hnames h
    (emittable_of_check hnamed (legible_of_parse htokens hp) h)
  rw [← quotations_cleared p, ← p.cleared_check c, quotations_cleared]
  exact wellLaid_java hprintable

/-- Blocks in blocks, one of them empty, and a text with a brace and a quote, in a program that uses
a variable of the host. -/
def nested : String :=
  "DEF main(): Integer DO WHILE x > 0 DO IF x < 9 DO print(\"\\\"\x7d\"); " ++
    "ELSE WHILE TRUE DO END END END RETURN 0; END"

theorem nested_well_laid : ∃ tokens p c text, Token.tokenize nested "shell" = .ok tokens ∧
    Program.parse tokens "shell" = .ok p ∧
    Checker.ofHost .builtin [("x", .integer)] [] = .ok c ∧ (p.check c).2.verdict = .ok () ∧
    (p.check c).2.tree.java = .ok text ∧ Java.WellLaid text.toList p.quotations ∧
    p.quotations = [['"', '\\', '"', '\x7d', '"']] := by
  have hfound : ((Token.tokenize nested "shell").toOption.bind fun tokens =>
      (Program.parse tokens "shell").toOption.bind fun p =>
        (Checker.ofHost .builtin [("x", .integer)] []).toOption.bind fun c =>
          (p.check c).2.verdict.toOption.map fun _ => p.quotations) =
      some [['"', '\\', '"', '\x7d', '"']] := by
    decide +kernel
  obtain ⟨tokens, htokens, h⟩ := Option.bind_eq_some_iff.mp hfound
  obtain ⟨p, hp, h⟩ := Option.bind_eq_some_iff.mp h
  obtain ⟨c, hc, h⟩ := Option.bind_eq_some_iff.mp h
  obtain ⟨u, hu, hquotations⟩ := Option.map_eq_some_iff.mp h
  have htokens := ok_of_toOption htokens
  have hp := ok_of_toOption hp
  have hc := ok_of_toOption hc
  have hu := ok_of_toOption hu
  have htypes : ∀ v ∈ [("x", Ty.integer)], v.2 ∈ Ty.builtins := by
    intro v hv
    rw [List.mem_singleton.mp hv]
    simp [Ty.builtins]
  obtain ⟨text, htext, hlaid⟩ := java_well_laid htokens hp htypes hc hu
  exact ⟨tokens, p, c, text, htokens, hp, hc, hu, htext, hlaid, hquotations⟩

end Program

end TeachLang
