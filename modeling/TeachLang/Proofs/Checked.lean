import TeachLang.Proofs.Ensures
import TeachLang.Proofs.Related
import TeachLang.Proofs.Typed
import TeachLang.Proofs.Types

/-!
# Checked trees are typed

What static checking accepts is typed: the slots that it fills are those that the rules ask for.

`Checker.Sees` says that a checker knows as much as a context and a list of functions. It is kept
by whatever a checker goes through, and `Expr.hasTy_of_check`, `Stmt.typed_of_check` and
`Method.typed_of_check` rest on it.
-/

namespace TeachLang

variable {T U S : Type}

/-! ## Verdicts -/

namespace Checked

/-- Where going on comes to a good verdict, the part had one too. -/
theorem andThen_ok {V : Type} {part : Checked T S} {stopped : T → U} {next : T → S → Checked U V}
    {found : V} (h : (part.andThen stopped next).verdict = .ok found) :
    ∃ first, part.verdict = .ok first ∧ part.andThen stopped next = next part.tree first ∧
      (next part.tree first).verdict = .ok found := by
  rw [andThen] at h ⊢
  rcases hp : part.verdict with d | first
  · rw [hp] at h
    cases h
  · rw [hp] at h
    exact ⟨first, rfl, rfl, h⟩

theorem fill_ok {node : Option S → T} {held : Option S} {result : Except Diagnostic S} {found : S}
    (h : (fill node held result).verdict = .ok found) :
    result = .ok found ∧ (fill node held result).tree = node (some found) := by
  cases result with
  | error d => cases h
  | ok s =>
    obtain rfl := Except.ok.inj h
    exact ⟨rfl, rfl⟩

theorem map_ok {V : Type} {f : S → V} {part : Checked T S} {found : V}
    (h : (part.map f).verdict = .ok found) :
    ∃ first, part.verdict = .ok first ∧ f first = found := by
  rw [map] at h
  rcases hp : part.verdict with d | first
  · rw [hp] at h
    cases h
  · rw [hp] at h
    exact ⟨first, rfl, Except.ok.inj h⟩

theorem within_ok {place : T → U} {part : Checked T S} {found : S}
    (h : (part.within place).verdict = .ok found) :
    part.verdict = .ok found ∧ part.within place = .pass (place part.tree) found :=
  ⟨h, congrArg (Checked.mk _) h⟩

theorem require_ok {test : S → Except Diagnostic Unit} {part : Checked T S} {found : S}
    (h : (part.require test).verdict = .ok found) :
    part.verdict = .ok found ∧ test found = .ok () := by
  rw [require] at h
  rcases hp : part.verdict with d | first
  · rw [hp] at h
    cases h
  · rw [hp] at h
    change (test first).bind _ = _ at h
    rcases ht : test first with d | u
    · rw [ht] at h
      cases h
    · rw [ht] at h
      obtain rfl := Except.ok.inj h
      exact ⟨rfl, ht⟩

end Checked

/-! ## What is known -/

/-- A scope of a checker and a frame give each name the same type, which is known. -/
def Frame.Matches (R : Regime) (bindings : List (String × Variable)) (frame : Frame) : Prop :=
  ∀ n, Option.Rel (fun v ty => v.ty = ty ∧ R.known ty) (bindings.lookup n) (frame.lookup n)

theorem Frame.Matches.lookup_eq_none {R : Regime} {bindings : List (String × Variable)}
    {frame : Frame} (h : Frame.Matches R bindings frame) {n : String}
    (hn : bindings.lookup n = none) : frame.lookup n = none := by
  have hrel := h n
  rw [hn] at hrel
  cases hf : frame.lookup n with
  | none => rfl
  | some ty =>
    rw [hf] at hrel
    cases hrel

theorem Frame.Matches.append {R : Regime} {bindings : List (String × Variable)} {frame : Frame}
    (h : Frame.Matches R bindings frame) {v : Variable} (hv : bindings.lookup v.name = none)
    (hty : R.known v.ty) :
    Frame.Matches R (bindings ++ [(v.name, v)]) (frame ++ [(v.name, v.ty)]) := by
  intro n
  rw [lookup_concat, lookup_concat]
  by_cases hn : n = v.name
  · rw [hn, hv, h.lookup_eq_none hv, if_pos rfl, if_pos rfl]
    exact .some ⟨rfl, hty⟩
  · rw [if_neg hn, if_neg hn, Option.or_none, Option.or_none]
    exact h n

/-- A checker resolves names to what a context and functions know of them, all types that it can
come across are known, and those that it finds by their names can be named. -/
structure Checker.Sees (R : Regime) (Δ : Functions) (c : Checker) (Γ : Context) : Prop where
  /-- its scopes are nested in a root, which holds all functions -/
  rooted : c.scopes.Rooted
  /-- it stands in one of them -/
  live : c.scope < c.depth
  /-- variables -/
  inReach : List.Forall₂ (Frame.Matches R) (c.scopes.view c.scope) Γ
  /-- functions -/
  functions : ∀ {n k f}, c.scopes.functionIn? n k Scopes.root = some f →
    Δ.lookup (n, k) = some f ∧ f.parameters.length = k ∧
      (∀ parameter ∈ f.parameters, R.known parameter) ∧ R.known f.result
  /-- types -/
  types : ∀ {ty}, ty ∈ c.registry.types → R.nameable ty

namespace Checker.Sees

variable {R : Regime} {Δ : Functions} {c : Checker} {Γ : Context}

theorem tyOf? (h : c.Sees R Δ Γ) {n : String} {position : Position} {v : Variable}
    (hv : c.lookupVariable n position = .ok v) : Γ.tyOf? n = some v.ty ∧ R.known v.ty := by
  -- both searches go frame by frame, and stop at the same one
  have found : ∀ {scopes : List (List (String × Variable))} {Γ : Context},
      List.Forall₂ (Frame.Matches R) scopes Γ →
      Option.Rel (fun v ty => v.ty = ty ∧ R.known ty)
        (scopes.findSome? (·.lookup n)) (Γ.tyOf? n) := by
    intro scopes Γ hmatch
    induction hmatch with
    | nil => exact .none
    | @cons bindings frame _ _ hfirst _ ih =>
      rw [Context.tyOf?, List.findSome?_cons, List.findSome?_cons]
      have hn := hfirst n
      rcases hb : bindings.lookup n with _ | v <;> rcases hf : frame.lookup n with _ | ty <;>
        rw [hb, hf] at hn
      · exact ih
      · cases hn
      · cases hn
      · exact hn
  have hrel := found h.inReach
  rw [Checker.lookupVariable, Scopes.lookupVariable, Scopes.nearestVariable?_eq] at hv
  rcases hs : (c.scopes.view c.scope).findSome? (·.lookup n) with _ | w
  · rw [hs] at hv
    cases hv
  · rw [hs] at hv hrel
    obtain rfl := Except.ok.inj hv
    rcases hΓ : Γ.tyOf? n with _ | ty
    · rw [hΓ] at hrel
      cases hrel
    · rw [hΓ] at hrel
      cases hrel with
      | some hty =>
        obtain ⟨rfl, hknown⟩ := hty
        exact ⟨rfl, hknown⟩

theorem function? (h : c.Sees R Δ Γ) {n : String} {k : Nat} {position : Position} {f : Signature}
    (hf : c.lookupFunction n k position = .ok f) :
    Δ.lookup (n, k) = some f ∧ f.parameters.length = k ∧
      (∀ parameter ∈ f.parameters, R.known parameter) ∧ R.known f.result := by
  rw [Checker.lookupFunction, Scopes.lookupFunction, h.rooted.nearestFunction?_eq n k h.live] at hf
  rcases hs : c.scopes.functionIn? n k Scopes.root with _ | g
  · rw [hs] at hf
    cases hf
  · rw [hs] at hf
    obtain rfl := Except.ok.inj hf
    exact h.functions hs

theorem type (h : c.Sees R Δ Γ) {n : String} {position : Position} {ty : Ty}
    (hty : c.resolveTy n position = .ok ty) : R.nameable ty := by
  rw [Checker.resolveTy, Registry.lookup] at hty
  split at hty
  · next hr =>
    obtain rfl := Except.ok.inj hty
    exact h.types (List.mem_of_find?_eq_some hr)
  · cases hty

/-- A new scope adds an empty frame to what is seen. -/
theorem enter (h : c.Sees R Δ Γ) : c.enter.Sees R Δ ([] :: Γ) := by
  refine ⟨h.rooted.child h.live, ?_, ?_, fun {n k f} hf => ?_, h.types⟩
  · change c.scopes.depth < (c.scopes.child c.scope).depth
    rw [Scopes.depth_child]
    omega
  · change List.Forall₂ _ ((c.scopes.child c.scope).view c.scopes.fresh) _
    rw [h.rooted.view_child h.live]
    exact .cons (fun _ => .none) h.inReach
  · change (c.scopes.child c.scope).functionIn? n k Scopes.root = some f at hf
    rw [h.rooted.functionIn?_child_root] at hf
    exact h.functions hf

/-- A declaration adds a variable of its type to what is seen, and it was not there before. -/
theorem declare (h : c.Sees R Δ Γ) {v : Variable} {position : Position} {next : Checker}
    (hty : R.known v.ty) (hd : c.declare v position = .ok next) :
    next.Sees R Δ (Γ.declare [(v.name, v.ty)]) ∧ Γ.Fresh v.name := by
  obtain ⟨scopes, hs, hnext⟩ := ok_of_bind hd
  obtain rfl := Except.ok.inj hnext
  obtain ⟨hnone, rfl⟩ := Scopes.eq_extend_of_defineVariable hs
  obtain ⟨scope, hscope⟩ := Scopes.get?_eq_some_of_lt h.live
  have hview := h.rooted.view_eq hscope
  have hreach := h.inReach
  rw [hview] at hreach
  rw [Scopes.variableIn?_eq, Scopes.bindings_eq hscope] at hnone
  -- the variable goes to the scope that the checker stands in, which is the first frame
  cases hreach with
  | @cons _ frame _ frames hfirst hothers =>
    refine ⟨⟨h.rooted.extend _ _, ?_, ?_, fun {n k f} hf => ?_, h.types⟩, ?_⟩
    · change c.scope < (c.scopes.extend c.scope _).depth
      rw [Scopes.depth_extend]
      exact h.live
    · change List.Forall₂ _ ((c.scopes.extend c.scope _).view c.scope) _
      rw [h.rooted.view_extend h.live, Scopes.bindings_eq hscope, hview]
      exact .cons (hfirst.append hnone hty) hothers
    · rw [Scopes.functionIn?_extend] at hf
      exact h.functions hf
    · exact hfirst.lookup_eq_none hnone

end Checker.Sees

/-! ## Expressions -/

variable {R : Regime} {Δ : Functions} {c : Checker} {Γ : Context}

theorem Literal.ty_eq_of_check {value : Literal} {position : Position} {ty : Ty}
    (h : value.check position = .ok ty) : ty = value.ty := by
  cases value <;> simp only [Literal.check] at h
  case integer n =>
    split at h
    · exact (Except.ok.inj h).symm
    · cases h
  case decimal d =>
    split at h
    · exact (Except.ok.inj h).symm
    · cases h
  all_goals exact (Except.ok.inj h).symm

theorem Literal.ty_mem_builtins (value : Literal) : value.ty ∈ Ty.builtins := by
  cases value <;> simp [Literal.ty, Ty.builtins]

/-- Arguments that may be given for known parameters are accepted by them, one by one. -/
theorem accepts_of_requireArguments {parameters : List Ty} {arguments : List (Position × Ty)}
    {u : Unit} (h : requireArguments parameters arguments = .ok u)
    (hlength : parameters.length = arguments.length)
    (hknown : ∀ parameter ∈ parameters, R.known parameter) :
    List.Forall₂ R.Accepts parameters (arguments.map Prod.snd) := by
  induction parameters generalizing arguments with
  | nil =>
    obtain rfl := List.length_eq_zero_iff.mp hlength.symm
    exact .nil
  | cons parameter parameters ih =>
    rcases arguments with _ | ⟨⟨position, ty⟩, arguments⟩
    · cases hlength
    · obtain ⟨_, hfirst, hothers⟩ := ok_of_bind h
      refine .cons ⟨hknown _ (List.mem_cons_self ..), Ty.isAssignable_of_require hfirst⟩ ?_
      exact ih hothers (Nat.succ.inj hlength) fun p hp => hknown p (List.mem_cons_of_mem _ hp)

theorem Expr.of_calleeFor {callee : Except Diagnostic Signature} {arguments : List (Position × Ty)}
    {f : Signature} (h : Expr.calleeFor callee arguments = .ok f) :
    callee = .ok f ∧ ∃ u, requireArguments f.parameters arguments = .ok u := by
  obtain ⟨g, hg, hrest⟩ := ok_of_bind h
  obtain ⟨u, hu, hf⟩ := ok_of_bind hrest
  obtain rfl := Except.ok.inj hf
  exact ⟨hg, u, hu⟩

theorem Ty.field?_of_field {ty : Ty} {n : String} {position : Position} {v : Variable}
    (h : ty.field n position = .ok v) : ty.field? n = some v := by
  rw [Ty.field] at h
  split at h
  · next hv => rw [hv, Except.ok.inj h]
  · cases h

theorem Ty.method?_of_method {ty : Ty} {n : String} {arity : Nat} {position : Position}
    {f : Signature} (h : ty.method n arity position = .ok f) :
    ty.method? n arity = some f ∧ f.parameters.length = arity := by
  rw [Ty.method] at h
  split at h
  · next hf =>
    obtain rfl := Except.ok.inj h
    have hfound := List.find?_some hf
    rw [Bool.and_eq_true] at hfound
    exact ⟨hf, beq_iff_eq.mp hfound.2⟩
  · cases h

namespace Expr

/-! What there is of an expression that is accepted, for each form of expressions. -/

variable {ty : Ty} {span : Span}

theorem check_literal_ok {value : Literal} {held : Option Ty}
    (h : ((literal value held span).check c).verdict = .ok ty) :
    ty = value.ty ∧
      ((literal value held span).check c).tree = literal value (some value.ty) span := by
  rw [check] at h ⊢
  obtain ⟨hty, htree⟩ := Checked.fill_ok h
  obtain rfl := Literal.ty_eq_of_check hty
  exact ⟨rfl, htree⟩

/-- Groups are only accepted around an operator, whose type they have. -/
theorem check_group_ok {inner : Expr} {held : Option Ty}
    (h : ((group inner held span).check c).verdict = .ok ty) :
    inner.isBinary ∧ (inner.check c).verdict = .ok ty ∧
      ((group inner held span).check c).tree = group (inner.check c).tree (some ty) span := by
  rw [check] at h ⊢
  split at h
  · next hbinary =>
    obtain ⟨found, hfound, htree, hty⟩ := Checked.andThen_ok h
    rw [if_pos hbinary, htree]
    obtain rfl := Except.ok.inj hty
    exact ⟨hbinary, hfound, rfl⟩
  · cases h

theorem check_binary_ok {operator : Operator} {left right : Expr} {held : Option Ty}
    (h : ((binary operator left right held span).check c).verdict = .ok ty) :
    ∃ a b, (left.check c).verdict = .ok a ∧ (right.check c).verdict = .ok b ∧
      operator.result? a b = some ty ∧ ((binary operator left right held span).check c).tree =
        binary operator (left.check c).tree (right.check c).tree (some ty) span := by
  rw [check] at h ⊢
  obtain ⟨a, ha, hleft, h⟩ := Checked.andThen_ok h
  obtain ⟨b, hb, hright, h⟩ := Checked.andThen_ok h
  obtain ⟨hty, htree⟩ := Checked.fill_ok h
  rw [hleft, hright]
  exact ⟨a, b, ha, hb, Operator.result?_of_result hty, htree⟩

theorem check_name_ok {n : String} {held : Option Variable}
    (h : ((name n held span).check c).verdict = .ok ty) :
    ∃ v, c.lookupVariable n span.start = .ok v ∧ v.ty = ty ∧
      ((name n held span).check c).tree = name n (some v) span := by
  rw [check] at h ⊢
  obtain ⟨v, hv, hty⟩ := Checked.map_ok h
  obtain ⟨hlookup, htree⟩ := Checked.fill_ok hv
  exact ⟨v, hlookup, hty, htree⟩

theorem check_member_ok {receiver : Expr} {n : String} {held : Option Variable}
    (h : ((member receiver n held span).check c).verdict = .ok ty) :
    ∃ owner v, (receiver.check c).verdict = .ok owner ∧ owner.field? n = some v ∧ v.ty = ty ∧
      ((member receiver n held span).check c).tree =
        member (receiver.check c).tree n (some v) span := by
  rw [check] at h ⊢
  obtain ⟨owner, howner, hreceiver, h⟩ := Checked.andThen_ok h
  obtain ⟨v, hv, hty⟩ := Checked.map_ok h
  obtain ⟨hfield, htree⟩ := Checked.fill_ok hv
  rw [hreceiver]
  exact ⟨owner, v, howner, Ty.field?_of_field hfield, hty, htree⟩

/-- The function is the one for so many arguments, and takes them. -/
theorem check_call_ok {n : String} {arguments : List Expr} {held : Option Signature}
    (h : ((call n arguments held span).check c).verdict = .ok ty) :
    ∃ tys f, (checkArguments c arguments).verdict = .ok tys ∧
      c.lookupFunction n tys.length span.start = .ok f ∧
      (∃ u, requireArguments f.parameters tys = .ok u) ∧ f.result = ty ∧
      ((call n arguments held span).check c).tree =
        call n (checkArguments c arguments).tree (some f) span := by
  rw [check] at h ⊢
  obtain ⟨tys, htys, harguments, h⟩ := Checked.andThen_ok h
  obtain ⟨f, hf, hty⟩ := Checked.map_ok h
  obtain ⟨hcallee, htree⟩ := Checked.fill_ok hf
  obtain ⟨hlookup, htakes⟩ := of_calleeFor hcallee
  rw [harguments]
  exact ⟨tys, f, htys, hlookup, htakes, hty, htree⟩

theorem check_methodCall_ok {receiver : Expr} {n : String} {arguments : List Expr}
    {held : Option Signature}
    (h : ((methodCall receiver n arguments held span).check c).verdict = .ok ty) :
    ∃ tys owner f, (checkArguments c arguments).verdict = .ok tys ∧
      (receiver.check c).verdict = .ok owner ∧ owner.method? n tys.length = some f ∧
      f.parameters.length = tys.length ∧ (∃ u, requireArguments f.parameters tys = .ok u) ∧
      f.result = ty ∧ ((methodCall receiver n arguments held span).check c).tree =
        methodCall (receiver.check c).tree n (checkArguments c arguments).tree (some f) span := by
  rw [check] at h ⊢
  obtain ⟨tys, htys, harguments, h⟩ := Checked.andThen_ok h
  obtain ⟨owner, howner, hreceiver, h⟩ := Checked.andThen_ok h
  obtain ⟨f, hf, hty⟩ := Checked.map_ok h
  obtain ⟨hcallee, htree⟩ := Checked.fill_ok hf
  obtain ⟨hlookup, htakes⟩ := of_calleeFor hcallee
  obtain ⟨hmethod, harity⟩ := Ty.method?_of_method hlookup
  rw [harguments, hreceiver]
  exact ⟨tys, owner, f, htys, howner, hmethod, harity, htakes, hty, htree⟩

/-- Where arguments are accepted, the first is, and so are the others behind it. -/
theorem checkArguments_cons_ok {e : Expr} {es : List Expr} {tys : List (Position × Ty)}
    (h : (checkArguments c (e :: es)).verdict = .ok tys) :
    ∃ ty others, (e.check c).verdict = .ok ty ∧ (checkArguments c es).verdict = .ok others ∧
      tys = ((e.check c).tree.span.start, ty) :: others ∧
      (checkArguments c (e :: es)).tree = (e.check c).tree :: (checkArguments c es).tree := by
  rw [checkArguments] at h ⊢
  obtain ⟨ty, hty, hfirst, h⟩ := Checked.andThen_ok h
  obtain ⟨others, hothers, hrest, h⟩ := Checked.andThen_ok h
  rw [hfirst, hrest]
  exact ⟨ty, others, hty, hothers, (Except.ok.inj h).symm, rfl⟩

mutual

/-- What is accepted has the type that was found, if the filled tree keeps to the restriction. -/
theorem hasTy_of_check (hR : R.Closed) (hc : c.Sees R Δ Γ) :
    ∀ {e : Expr} {ty : Ty}, (e.check c).verdict = .ok ty →
      (e.check c).tree.Obeys R.toRestriction → (e.check c).tree.HasTy R Δ Γ ty ∧ R.known ty
  | .literal value held span, ty, h, _ => by
    obtain ⟨rfl, htree⟩ := check_literal_ok h
    rw [htree]
    exact ⟨.literal, hR.known_builtin value.ty_mem_builtins⟩
  | .group inner held span, ty, h, ho => by
    obtain ⟨-, hinner, htree⟩ := check_group_ok h
    rw [htree] at ho ⊢
    obtain ⟨htyped, hknown⟩ := hasTy_of_check hR hc hinner ho
    exact ⟨.group htyped, hknown⟩
  | .binary operator left right held span, ty, h, ho => by
    obtain ⟨a, b, ha, hb, hresult, htree⟩ := check_binary_ok h
    rw [htree] at ho ⊢
    obtain ⟨holeft, horight, hoperands⟩ := ho
    -- the restriction speaks of the types in the slots, which are those of the operands
    have hl := (hasTy_of_check hR hc ha holeft).1
    have hr := (hasTy_of_check hR hc hb horight).1
    exact ⟨.binary hl hr (hoperands a b hl.ty? hr.ty?) hresult,
      hR.known_builtin (Operator.result?_mem_builtins hresult)⟩
  | .name n held span, ty, h, _ => by
    obtain ⟨v, hlookup, rfl, htree⟩ := check_name_ok h
    obtain ⟨hty, hknown⟩ := hc.tyOf? hlookup
    exact ⟨htree ▸ .name hty, hknown⟩
  | .member receiver n held span, ty, h, ho => by
    obtain ⟨owner, v, howner, hv, rfl, htree⟩ := check_member_ok h
    rw [htree] at ho ⊢
    obtain ⟨hr, hknown⟩ := hasTy_of_check hR hc howner ho
    exact ⟨.member hr hknown hv, hR.field hknown hv⟩
  | .call n arguments held span, ty, h, ho => by
    obtain ⟨tys, f, htys, hlookup, ⟨u, hu⟩, rfl, htree⟩ := check_call_ok h
    rw [htree] at ho ⊢
    obtain ⟨hfunction, harity, hparameters, hresult⟩ := hc.function? hlookup
    -- functions are found by the number of arguments, which `requireArguments` does not compare
    have hargs := haveTys_of_check hR hc htys ho
    refine ⟨.call hargs ?_ (accepts_of_requireArguments hu harity hparameters), hresult⟩
    rw [hargs.length_eq, List.length_map]
    exact hfunction
  | .methodCall receiver n arguments held span, ty, h, ho => by
    obtain ⟨tys, owner, f, htys, howner, hmethod, harity, ⟨u, hu⟩, rfl, htree⟩ :=
      check_methodCall_ok h
    rw [htree] at ho ⊢
    obtain ⟨hr, hknown⟩ := hasTy_of_check hR hc howner ho.1
    obtain ⟨hparameters, hresult⟩ := hR.method hknown hmethod
    have hargs := haveTys_of_check hR hc htys ho.2
    refine ⟨.methodCall hr hknown hargs ?_ (accepts_of_requireArguments hu harity hparameters),
      hresult⟩
    rw [hargs.length_eq, List.length_map]
    exact hmethod

/-- Arguments that are accepted have the types that were found. -/
theorem haveTys_of_check (hR : R.Closed) (hc : c.Sees R Δ Γ) :
    ∀ {es : List Expr} {tys : List (Position × Ty)}, (checkArguments c es).verdict = .ok tys →
      AllObey R.toRestriction (checkArguments c es).tree →
      HaveTys R Δ Γ (checkArguments c es).tree (tys.map Prod.snd)
  | [], tys, h, _ => by
    rw [checkArguments] at h ⊢
    obtain rfl := Except.ok.inj h
    exact .nil
  | e :: es, tys, h, ho => by
    obtain ⟨ty, others, hty, hothers, rfl, htree⟩ := checkArguments_cons_ok h
    rw [htree] at ho ⊢
    exact .cons (hasTy_of_check hR hc hty ho.1).1 (haveTys_of_check hR hc hothers ho.2)

end

/-- Checking fills slots, so what designates a place still does. -/
theorem isAccess_of_check {e : Expr} (h : e.isAccess) : (e.check c).tree.isAccess := by
  cases e with
  | name n held span =>
    rw [check]
    cases c.lookupVariable n span.start <;> rfl
  | member receiver n held span =>
    rw [check]
    rcases hr : (receiver.check c).verdict with d | ty
    · simp only [Checked.andThen, hr]
      rfl
    · simp only [Checked.andThen, hr]
      cases ty.field n span.start <;> rfl
  | _ => cases h

theorem checkAs_ok {required : Ty} {e : Expr} {found : Ty}
    (h : (e.checkAs c required).verdict = .ok found) :
    (e.check c).verdict = .ok found ∧ required.isAssignable found := by
  obtain ⟨hfound, htest⟩ := Checked.require_ok h
  exact ⟨hfound, Ty.isAssignable_of_require htest⟩

end Expr

/-! ## Statements -/

/-- A type that is named is found in the registry. -/
theorem Checker.Sees.nameable_of_mapM (hc : c.Sees R Δ Γ) {typeName : Option String}
    {position : Position} {declared : Option Ty}
    (h : typeName.mapM (c.resolveTy · position) = .ok declared) :
    ∀ ty ∈ declared, R.nameable ty := by
  cases typeName with
  | none =>
    obtain rfl := Except.ok.inj h
    intro ty hty
    cases hty
  | some name =>
    change (c.resolveTy name position >>= fun ty => .ok (some ty)) = .ok _ at h
    obtain ⟨found, hfound, hd⟩ := ok_of_bind h
    obtain rfl := Except.ok.inj hd
    intro ty hty
    obtain rfl := Option.some.inj hty
    exact hc.type hfound

/-- The type of a variable takes its first value. -/
theorem Checker.starts_of_checkValue (hR : R.Closed) (hc : c.Sees R Δ Γ) {name : String}
    {declared : Option Ty} {value : Option Expr} {found : Option (Position × Ty)}
    {position : Position} {ty : Ty} (hdeclared : ∀ ty ∈ declared, R.nameable ty)
    (hvalue : (c.checkValue value).verdict = .ok found)
    (hty : Checker.variableTy name declared found position = .ok ty)
    (ho : R.toRestriction.ObeyedBy (c.checkValue value).tree) :
    Expr.Starts R Δ Γ ty (c.checkValue value).tree ∧ R.known ty := by
  cases value with
  | none =>
    obtain rfl := Except.ok.inj hvalue
    cases declared with
    | none => cases hty
    | some declared =>
      obtain rfl := Except.ok.inj hty
      exact ⟨.unset ho (hdeclared _ rfl), hR.named (hdeclared _ rfl)⟩
  | some e =>
    obtain ⟨source, hsource, rfl⟩ := Checked.map_ok hvalue
    obtain ⟨htyped, hknown⟩ := Expr.hasTy_of_check hR hc hsource ho
    cases declared with
    | none =>
      obtain rfl := Except.ok.inj hty
      exact ⟨.value htyped ⟨hknown, Ty.isAssignable_self _⟩, hknown⟩
    | some declared =>
      obtain ⟨u, hassignable, hd⟩ := ok_of_bind hty
      obtain rfl := Except.ok.inj hd
      have hd := hR.named (hdeclared _ rfl)
      exact ⟨.value htyped ⟨hd, Ty.isAssignable_of_require hassignable⟩, hd⟩

/-- What there is of a variable that is accepted. -/
theorem Checker.checkVariable_ok {name : String} {typeName : Option String} {value : Option Expr}
    {held : Option Variable} {position : Position} {node : Option Expr → Option Variable → T}
    {u : Unit} (h : (c.checkVariable name typeName value held position node).2.verdict = .ok u) :
    ∃ declared found ty next, typeName.mapM (c.resolveTy · position) = .ok declared ∧
      (c.checkValue value).verdict = .ok found ∧
      variableTy name declared found position = .ok ty ∧
      c.declare (.plain name ty) position = .ok next ∧
      c.checkVariable name typeName value held position node =
        (next, .pass (node (c.checkValue value).tree (some (.plain name ty))) ()) := by
  unfold checkVariable at h ⊢
  rcases hdeclared : typeName.mapM (c.resolveTy · position) with d | declared
  · simp only [hdeclared] at h
    cases h
  rcases hfound : (c.checkValue value).verdict with d | found
  · simp only [hdeclared, hfound] at h
    cases h
  rcases hty : variableTy name declared found position with d | ty
  · simp only [hdeclared, hfound, hty] at h
    cases h
  rcases hnext : c.declare (.plain name ty) position with d | next
  · simp only [hdeclared, hfound, hty, hnext] at h
    cases h
  refine ⟨declared, found, ty, next, rfl, rfl, hty, hnext, ?_⟩
  simp only [hfound, hty, hnext]

/-- A variable that is accepted is declared and may start as it does. -/
theorem Checker.starts_of_checkVariable (hR : R.Closed) (hc : c.Sees R Δ Γ) {name : String}
    {typeName : Option String} {value : Option Expr} {held : Option Variable} {position : Position}
    {node : Option Expr → Option Variable → T} {u : Unit}
    (h : (c.checkVariable name typeName value held position node).2.verdict = .ok u) :
    ∃ first ty, (c.checkVariable name typeName value held position node).2.tree =
        node first (some (.plain name ty)) ∧
      c.declare (.plain name ty) position =
        .ok (c.checkVariable name typeName value held position node).1 ∧
      (R.toRestriction.ObeyedBy first → Expr.Starts R Δ Γ ty first ∧ R.known ty) := by
  obtain ⟨declared, found, ty, next, hdeclared, hfound, hty, hnext, heq⟩ := checkVariable_ok h
  rw [heq]
  refine ⟨_, _, rfl, hnext, fun ho => ?_⟩
  exact starts_of_checkValue hR hc (hc.nameable_of_mapM hdeclared) hfound hty ho

theorem Context.declare_nil : ∀ Γ : Context, Γ.declare [] = Γ
  | [] => rfl
  | frame :: frames => congrArg (· :: frames) (List.append_nil frame)

namespace Stmt

/-- A statement that is no declaration declares nothing. -/
theorem sees_of_declared_nil (hc : c.Sees R Δ Γ) {stmt : Stmt} (h : stmt.declared = []) :
    c.Sees R Δ (Γ.declare stmt.declared) := by
  rw [h, Context.declare_nil]
  exact hc

/-- Where statements are accepted, the first is, and so are the others behind it. -/
theorem checkAll_cons_ok {c : Checker} {stmt : Stmt} {stmts : List Stmt} {u : Unit}
    (h : (checkAll c (stmt :: stmts)).2.verdict = .ok u) :
    (stmt.check c).2.verdict = .ok () ∧ (checkAll (stmt.check c).1 stmts).2.verdict = .ok u ∧
      (checkAll c (stmt :: stmts)).2.tree =
        (stmt.check c).2.tree :: (checkAll (stmt.check c).1 stmts).2.tree := by
  rw [checkAll] at h ⊢
  rcases hfirst : (stmt.check c).2.verdict with d | _
  · simp only [hfirst] at h
    cases h
  · simp only [hfirst] at h ⊢
    exact ⟨trivial, h, rfl⟩

/-! What there is of a statement that is accepted, for each form of statements. -/

theorem check_expression_ok {e : Expr} {span : Span} {u : Unit}
    (h : ((expression e span).check c).2.verdict = .ok u) :
    ∃ ty, (e.check c).verdict = .ok ty ∧
      (expression e span).check c = (c, .pass (expression (e.check c).tree span) ()) := by
  rw [check] at h ⊢
  split at h
  · next hcall =>
    obtain ⟨ty, hty, -⟩ := Checked.map_ok h
    rw [if_pos hcall, Checked.within, Checked.map, hty]
    exact ⟨ty, rfl, rfl⟩
  · cases h

theorem check_assignment_ok {target value : Expr} {span : Span} {u : Unit}
    (h : ((assignment target value span).check c).2.verdict = .ok u) :
    ∃ a b, target.isAccess ∧ (target.check c).verdict = .ok a ∧ (value.check c).verdict = .ok b ∧
      a.isAssignable b ∧ (assignment target value span).check c =
        (c, .pass (assignment (target.check c).tree (value.check c).tree span) ()) := by
  rw [check] at h ⊢
  split at h
  · next haccess =>
    obtain ⟨a, ha, htarget, h⟩ := Checked.andThen_ok h
    obtain ⟨b, hb, -⟩ := Checked.map_ok h
    rw [if_pos haccess, htarget, Checked.within, Checked.map, hb]
    obtain ⟨hb, hassignable⟩ := Expr.checkAs_ok hb
    exact ⟨a, b, haccess, ha, hb, hassignable, rfl⟩
  · cases h

theorem check_conditional_ok {condition : Expr} {thenBody elseBody : List Stmt} {span : Span}
    {u : Unit} (h : ((conditional condition thenBody elseBody span).check c).2.verdict = .ok u) :
    ∃ ty, (condition.check c).verdict = .ok ty ∧ Ty.boolean.isAssignable ty ∧
      (checkAll c.enter thenBody).2.verdict = .ok () ∧
      (checkAll c.enter elseBody).2.verdict = .ok () ∧
      (conditional condition thenBody elseBody span).check c =
        (c, .pass (conditional (condition.check c).tree (checkAll c.enter thenBody).2.tree
          (checkAll c.enter elseBody).2.tree span) ()) := by
  rw [check] at h ⊢
  obtain ⟨ty, hty, hcondition, h⟩ := Checked.andThen_ok h
  obtain ⟨hty, hassignable⟩ := Expr.checkAs_ok hty
  split at h
  · cases h
  · next hempty =>
    obtain ⟨_, hthen, hbody, h⟩ := Checked.andThen_ok h
    obtain ⟨helse, htree⟩ := Checked.within_ok h
    rw [hcondition, if_neg hempty, hbody, htree]
    exact ⟨ty, hty, hassignable, hthen, helse, rfl⟩

theorem check_forEach_ok {n : String} {items : Expr} {body : List Stmt} {span : Span} {u : Unit}
    (h : ((forEach n items body span).check c).2.verdict = .ok u) :
    ∃ ty inner, (items.check c).verdict = .ok ty ∧ Ty.integerIterable.isAssignable ty ∧
      c.enter.declare (.plain n .integer) span.start = .ok inner ∧
      (checkAll inner body).2.verdict = .ok () ∧
      (forEach n items body span).check c =
        (c, .pass (forEach n (items.check c).tree (checkAll inner body).2.tree span) ()) := by
  rw [check] at h ⊢
  obtain ⟨ty, hty, hitems, h⟩ := Checked.andThen_ok h
  obtain ⟨hty, hassignable⟩ := Expr.checkAs_ok hty
  split at h
  · cases h
  · next hempty =>
    rw [hitems, if_neg hempty]
    rcases hinner : c.enter.declare (.plain n .integer) span.start with d | inner
    · rw [hinner] at h
      cases h
    · simp only [hinner] at h ⊢
      obtain ⟨hbody, htree⟩ := Checked.within_ok h
      rw [htree]
      exact ⟨ty, inner, hty, hassignable, rfl, hbody, rfl⟩

theorem check_whileLoop_ok {condition : Expr} {body : List Stmt} {span : Span} {u : Unit}
    (h : ((whileLoop condition body span).check c).2.verdict = .ok u) :
    ∃ ty, (condition.check c).verdict = .ok ty ∧ Ty.boolean.isAssignable ty ∧
      (checkAll c.enter body).2.verdict = .ok () ∧
      (whileLoop condition body span).check c =
        (c, .pass (whileLoop (condition.check c).tree (checkAll c.enter body).2.tree span) ()) := by
  rw [check] at h ⊢
  obtain ⟨ty, hty, hcondition, h⟩ := Checked.andThen_ok h
  obtain ⟨hty, hassignable⟩ := Expr.checkAs_ok hty
  obtain ⟨hbody, htree⟩ := Checked.within_ok h
  rw [hcondition, htree]
  exact ⟨ty, hty, hassignable, hbody, rfl⟩

theorem check_returns_ok {value : Expr} {span : Span} {u : Unit}
    (h : ((returns value span).check c).2.verdict = .ok u) :
    ∃ ty, (value.check c).verdict = .ok ty ∧
      (returns value span).check c = (c, .pass (returns (value.check c).tree span) ()) := by
  rw [check] at h ⊢
  obtain ⟨ty, hty, -⟩ := Checked.map_ok h
  rw [Checked.within, Checked.map, hty]
  exact ⟨ty, rfl, rfl⟩

mutual

/-- A statement that is accepted is typed, if the filled tree keeps to the restriction, and what
comes behind it sees what it declares. -/
theorem typed_of_check (hR : R.Closed) {result : Ty} :
    ∀ {stmt : Stmt} {c : Checker} {Γ : Context} {u : Unit}, c.Sees R Δ Γ →
      (stmt.check c).2.verdict = .ok u → (stmt.check c).2.tree.Obeys R.toRestriction result →
      (stmt.check c).2.tree.Typed R Δ result Γ ∧
        (stmt.check c).1.Sees R Δ (Γ.declare (stmt.check c).2.tree.declared)
  | .expression e span, c, Γ, u, hc, h, ho => by
    obtain ⟨ty, hty, heq⟩ := check_expression_ok h
    rw [heq] at ho ⊢
    exact ⟨.expression (Expr.hasTy_of_check hR hc hty ho).1, sees_of_declared_nil hc rfl⟩
  | .declaration name typeName value held span, c, Γ, u, hc, h, ho => by
    rw [check] at h ho ⊢
    obtain ⟨first, ty, htree, hnext, htyped⟩ := Checker.starts_of_checkVariable hR hc h
    rw [htree] at ho ⊢
    obtain ⟨hstarts, hknown⟩ := htyped ho
    obtain ⟨hsees, hfresh⟩ := hc.declare hknown hnext
    exact ⟨.declaration hstarts hfresh, hsees⟩
  | .assignment target value span, c, Γ, u, hc, h, ho => by
    obtain ⟨a, b, haccess, ha, hb, hassignable, heq⟩ := check_assignment_ok h
    rw [heq] at ho ⊢
    obtain ⟨htyped, hknown⟩ := Expr.hasTy_of_check hR hc ha ho.1
    have hvalue := (Expr.hasTy_of_check hR hc hb ho.2).1
    refine ⟨.assignment ?_ htyped hvalue ⟨hknown, hassignable⟩, sees_of_declared_nil hc rfl⟩
    exact Expr.isAccess_of_check haccess
  | .conditional condition thenBody elseBody span, c, Γ, u, hc, h, ho => by
    obtain ⟨ty, hty, hassignable, hthen, helse, heq⟩ := check_conditional_ok h
    rw [heq] at ho ⊢
    exact ⟨.conditional (Expr.hasTy_of_check hR hc hty ho.1).1
        ⟨hR.known_builtin (by simp [Ty.builtins]), hassignable⟩
        (allTyped_of_checkAll hR hc.enter hthen ho.2.1)
        (allTyped_of_checkAll hR hc.enter helse ho.2.2),
      sees_of_declared_nil hc rfl⟩
  | .forEach name items body span, c, Γ, u, hc, h, ho => by
    obtain ⟨ty, inner, hty, hassignable, hinner, hbody, heq⟩ := check_forEach_ok h
    rw [heq] at ho ⊢
    have hinteger : R.known .integer := hR.known_builtin (by simp [Ty.builtins])
    -- the body sees the variable of the loop in a scope of its own
    have hsees := (hc.enter.declare hinteger hinner).1
    exact ⟨.forEach (Expr.hasTy_of_check hR hc hty ho.1).1
        ⟨hR.known_builtin (by simp [Ty.builtins]), hassignable⟩
        (allTyped_of_checkAll hR hsees hbody ho.2),
      sees_of_declared_nil hc rfl⟩
  | .whileLoop condition body span, c, Γ, u, hc, h, ho => by
    obtain ⟨ty, hty, hassignable, hbody, heq⟩ := check_whileLoop_ok h
    rw [heq] at ho ⊢
    exact ⟨.whileLoop (Expr.hasTy_of_check hR hc hty ho.1).1
        ⟨hR.known_builtin (by simp [Ty.builtins]), hassignable⟩
        (allTyped_of_checkAll hR hc.enter hbody ho.2),
      sees_of_declared_nil hc rfl⟩
  | .returns value span, c, Γ, u, hc, h, ho => by
    obtain ⟨ty, hty, heq⟩ := check_returns_ok h
    rw [heq] at ho ⊢
    have hvalue := (Expr.hasTy_of_check hR hc hty ho.1).1
    -- that the type of the value is allowed here comes from the restriction
    exact ⟨.returns hvalue (ho.2 ty hvalue.ty?), sees_of_declared_nil hc rfl⟩

/-- Statements that are accepted are typed. -/
theorem allTyped_of_checkAll (hR : R.Closed) {result : Ty} :
    ∀ {stmts : List Stmt} {c : Checker} {Γ : Context} {u : Unit}, c.Sees R Δ Γ →
      (checkAll c stmts).2.verdict = .ok u →
      AllObey R.toRestriction result (checkAll c stmts).2.tree →
      AllTyped R Δ result Γ (checkAll c stmts).2.tree
  | [], c, Γ, u, _, _, _ => by
    rw [checkAll]
    exact .nil
  | stmt :: stmts, c, Γ, u, hc, h, ho => by
    obtain ⟨hfirst, hothers, htree⟩ := checkAll_cons_ok h
    rw [htree] at ho ⊢
    obtain ⟨htyped, hsees⟩ := typed_of_check hR hc hfirst ho.1
    exact .cons htyped (allTyped_of_checkAll hR hsees hothers ho.2)

end

end Stmt

end TeachLang
