import TeachLang.Proofs.Checked

/-!
# Accepted programs are typed

`Program.typed_of_check` is the end of what is said about static checking: a program that is
accepted by a checker that stands in the root, and that keeps to the restriction, is typed.

The functions that there are in the end are only known when all methods are declared, but a method
is checked before those behind it. So what is shown of the methods is shown for every list of
functions that goes on as theirs does.
-/

namespace TeachLang

variable {R : Regime} {Δ : Functions} {c : Checker} {globals : Frame}

/-- A checker between the parts of a program: it stands in the root, with the given functions and
variables and no others. -/
structure Checker.AtRoot (R : Regime) (Δ : Functions) (c : Checker) (globals : Frame) : Prop
    extends c.Sees R Δ [globals] where
  /-- it is in no scope but the root -/
  outermost : c.scope = Scopes.root
  /-- it has all the functions -/
  exact : ∀ {n k}, c.scopes.functionIn? n k Scopes.root = none → Δ.lookup (n, k) = none

/-- More functions can be called than a checker knows of. -/
theorem Checker.Sees.widen {Γ : Context} (h : c.Sees R Δ Γ) (more : Functions) :
    c.Sees R (Δ ++ more) Γ := by
  refine ⟨h.rooted, h.live, h.inReach, fun {n k f} hf => ?_, h.types⟩
  obtain ⟨hlookup, hsignature⟩ := h.functions hf
  refine ⟨?_, hsignature⟩
  rw [List.lookup_append, hlookup]
  rfl

namespace Checker.AtRoot

theorem declare (h : c.AtRoot R Δ globals) {v : Variable} {position : Position} {next : Checker}
    (hty : R.known v.ty) (hd : c.declare v position = .ok next) :
    next.AtRoot R Δ (globals ++ [(v.name, v.ty)]) ∧ globals.lookup v.name = none := by
  obtain ⟨hsees, hfresh⟩ := h.toSees.declare hty hd
  obtain ⟨scopes, hs, hnext⟩ := ok_of_bind hd
  obtain rfl := Except.ok.inj hnext
  obtain ⟨-, rfl⟩ := Scopes.eq_extend_of_defineVariable hs
  refine ⟨⟨hsees, h.outermost, fun {n k} hnone => h.exact ?_⟩, hfresh⟩
  rwa [Scopes.functionIn?_extend] at hnone

theorem declareFunction (h : c.AtRoot R Δ globals) {f : Signature} {position : Position}
    {next : Checker} (hparameters : ∀ parameter ∈ f.parameters, R.known parameter)
    (hresult : R.known f.result) (hd : c.declareFunction f position = .ok next) :
    next.AtRoot R (Δ ++ [((f.name, f.arity), f)]) globals ∧
      Δ.lookup (f.name, f.arity) = none := by
  obtain ⟨scopes, hs, hnext⟩ := ok_of_bind hd
  obtain rfl := Except.ok.inj hnext
  rw [h.outermost] at hs
  obtain ⟨hnone, rfl⟩ := Scopes.eq_addFunction_of_defineFunction hs
  have hfunction := h.rooted.functionIn?_addFunction (f.name, f.arity) f
  refine ⟨⟨⟨h.rooted.addFunction _ _, ?_, ?_, fun {n k g} hg => ?_, h.types⟩, h.outermost,
    fun {n k} hg => ?_⟩, h.exact hnone⟩
  · change c.scope < (c.scopes.addFunction _ f).depth
    rw [Scopes.depth_addFunction]
    exact h.live
  · change List.Forall₂ _ ((c.scopes.addFunction _ f).view c.scope) _
    rw [Scopes.view_addFunction]
    exact h.inReach
  · rw [hfunction] at hg
    rw [lookup_concat]
    -- an older function under the same key would be found first
    rcases hold : c.scopes.functionIn? n k Scopes.root with _ | old
    · rw [hold, Option.none_or] at hg
      rw [h.exact hold, Option.none_or]
      refine ⟨hg, ?_⟩
      split at hg
      · next hkey =>
        obtain rfl := Option.some.inj hg
        exact ⟨(congrArg Prod.snd hkey).symm, hparameters, hresult⟩
      · cases hg
    · rw [hold, Option.some_or] at hg
      obtain rfl := Option.some.inj hg
      obtain ⟨hlookup, hsignature⟩ := h.functions hold
      exact ⟨by rw [hlookup, Option.some_or], hsignature⟩
  · rw [hfunction] at hg
    obtain ⟨hold, hnew⟩ := Option.or_eq_none_iff.mp hg
    rw [lookup_concat, h.exact hold, Option.none_or, hnew]

end Checker.AtRoot

/-! ## One after the other -/

/-- Where items are accepted, the first is, and so are the others behind it. -/
theorem Program.checkEach_cons_ok {T : Type} {check : Checker → T → Checker × Checked T Unit}
    {item : T} {items : List T} {u : Unit}
    (h : (checkEach check c (item :: items)).2.verdict = .ok u) :
    (check c item).2.verdict = .ok () ∧
      (checkEach check (check c item).1 items).2.verdict = .ok u ∧
      (checkEach check c (item :: items)).1 = (checkEach check (check c item).1 items).1 ∧
      (checkEach check c (item :: items)).2.tree =
        (check c item).2.tree :: (checkEach check (check c item).1 items).2.tree := by
  rw [checkEach] at h ⊢
  rcases hfirst : (check c item).2.verdict with d | _
  · simp only [hfirst] at h
    cases h
  · simp only [hfirst] at h ⊢
    exact ⟨trivial, h, trivial, rfl⟩

/-! ## Fields -/

/-- Fields that are accepted are typed. -/
theorem Field.allTyped_of_checkEach (hR : R.Closed) :
    ∀ {fields : List Field} {c : Checker} {globals : Frame} {u : Unit}, c.AtRoot R Δ globals →
      (Program.checkEach Field.check c fields).2.verdict = .ok u →
      (∀ f ∈ (Program.checkEach Field.check c fields).2.tree,
        R.toRestriction.ObeyedBy f.value) →
      ∃ last, Field.AllTyped R Δ globals (Program.checkEach Field.check c fields).2.tree last ∧
        (Program.checkEach Field.check c fields).1.AtRoot R Δ last
  | [], c, globals, u, hc, _, _ => ⟨globals, .nil, hc⟩
  | f :: fields, c, globals, u, hc, h, ho => by
    obtain ⟨hfirst, hrest, hend, htrees⟩ := Program.checkEach_cons_ok h
    obtain ⟨first, ty, htree, hnext, htyped⟩ :=
      Checker.starts_of_checkVariable hR hc.toSees (hfirst : (c.checkVariable ..).2.verdict = _)
    change (f.check c).2.tree = _ at htree
    rw [htrees, htree] at ho ⊢
    rw [hend]
    obtain ⟨hstarts, hknown⟩ := htyped (ho _ (List.mem_cons_self ..))
    obtain ⟨hroot, hfresh⟩ := hc.declare hknown hnext
    obtain ⟨last, hothers, hlast⟩ := Field.allTyped_of_checkEach hR hroot hrest
      fun g hg => ho g (List.mem_cons_of_mem _ hg)
    exact ⟨last, .cons rfl hstarts hfresh hothers, hlast⟩

/-! ## Methods -/

/-- Declared parameters are seen behind the variables that were there, and have names of their
own. -/
theorem Checker.Sees.declareAll {position : Position} {Γ : Context} :
    ∀ {vs : List Variable} {c inner : Checker} {frame : Frame}, c.Sees R Δ (frame :: Γ) →
      (∀ v ∈ vs, R.known v.ty) → c.declareAll position vs = .ok inner →
      inner.Sees R Δ ((frame ++ vs.map fun v => (v.name, v.ty)) :: Γ) ∧
        (vs.map Variable.name).Nodup ∧ ∀ v ∈ vs, frame.lookup v.name = none
  | [], c, inner, frame, hc, _, h => by
    obtain rfl := Except.ok.inj h
    rw [List.map_nil, List.append_nil]
    exact ⟨hc, .nil, fun v hv => absurd hv (List.not_mem_nil)⟩
  | v :: vs, c, inner, frame, hc, hknown, h => by
    obtain ⟨next, hnext, hrest⟩ := ok_of_bind h
    obtain ⟨hsees, hfresh⟩ := hc.declare (hknown v (List.mem_cons_self ..)) hnext
    obtain ⟨hlast, hdistinct, hothers⟩ :=
      Checker.Sees.declareAll hsees (fun w hw => hknown w (List.mem_cons_of_mem _ hw)) hrest
    rw [List.append_assoc] at hlast
    -- a parameter of the same name further on would not have been free any more
    refine ⟨hlast, List.nodup_cons.mpr ⟨fun hmem => ?_, hdistinct⟩, fun w hw => ?_⟩
    · obtain ⟨w, hw, hname⟩ := List.mem_map.mp hmem
      have hnone := hothers w hw
      rw [lookup_concat, hname, if_pos rfl] at hnone
      cases (Option.or_eq_none_iff.mp hnone).2
    · rcases List.mem_cons.mp hw with rfl | hw
      · exact hfresh
      · have hnone := hothers w hw
        rw [lookup_concat] at hnone
        exact (Option.or_eq_none_iff.mp hnone).1

theorem mapM_nameable {names : List (String × String)} {position : Position} {tys : List Ty}
    {Γ : Context} (hc : c.Sees R Δ Γ)
    (h : names.mapM (fun parameter => c.resolveTy parameter.2 position) = .ok tys) :
    names.length = tys.length ∧ ∀ ty ∈ tys, R.nameable ty := by
  induction names generalizing tys with
  | nil =>
    obtain rfl := Except.ok.inj h
    exact ⟨rfl, fun ty hty => absurd hty (List.not_mem_nil)⟩
  | cons parameter names ih =>
    rw [List.mapM_cons] at h
    obtain ⟨ty, hty, hrest⟩ := ok_of_bind h
    obtain ⟨others, hothers, hlast⟩ := ok_of_bind hrest
    obtain rfl := Except.ok.inj hlast
    obtain ⟨hlength, hnameable⟩ := ih hothers
    refine ⟨congrArg (· + 1) hlength, fun ty' hty' => ?_⟩
    rcases List.mem_cons.mp hty' with rfl | hty'
    · exact hc.type hty
    · exact hnameable ty' hty'

/-- The signature that a method declares has its name, and types that can be named. -/
theorem Checker.Sees.of_signature {Γ : Context} {m : Method} {f : Signature} (hR : R.Closed)
    (hc : c.Sees R Δ Γ) (h : c.signature m = .ok f) :
    f.name = m.name ∧ m.parameters.length = f.parameters.length ∧
      (∀ parameter ∈ f.parameters, R.nameable parameter) ∧ R.nameable f.result := by
  obtain ⟨parameters, hparameters, hrest⟩ := ok_of_bind h
  obtain ⟨result, hresult, hf⟩ := ok_of_bind hrest
  obtain rfl := Except.ok.inj hf
  obtain ⟨hlength, hnameable⟩ := mapM_nameable hc hparameters
  refine ⟨rfl, hlength, hnameable, ?_⟩
  cases result with
  | none => exact hR.builtin (by simp [Ty.builtins])
  | some ty => exact hc.nameable_of_mapM hresult ty rfl

namespace Method

/-- What there is of a method that is accepted. -/
theorem check_ok {m : Method} {u : Unit} (h : (m.check c).2.verdict = .ok u) :
    ∃ f next inner, c.signature m = .ok f ∧ c.declareFunction f m.span.start = .ok next ∧
      next.enter.declareAll m.span.start (m.parameterVariables f) = .ok inner ∧
      (Stmt.checkAll inner m.body).2.verdict = .ok u ∧
      m.check c = (next,
        ⟨{ m with callee := some f, body := (Stmt.checkAll inner m.body).2.tree }, .ok u⟩) := by
  unfold check at h ⊢
  rcases hf : c.signature m with d | f
  · simp only [hf] at h
    cases h
  rcases hnext : c.declareFunction f m.span.start with d | next
  · simp only [hf, hnext] at h
    cases h
  have hvariables : ({ m with callee := some f } : Method).parameterVariables f =
    m.parameterVariables f := rfl
  simp only [hf, hnext, checkBody, hvariables] at h ⊢
  rcases hinner : next.enter.declareAll m.span.start (m.parameterVariables f) with d | inner
  · rw [hinner] at h
    cases h
  · simp only [hinner, Checked.within] at h ⊢
    exact ⟨f, next, inner, rfl, hnext, hinner, h, by rw [h]⟩

/-- The frame of a method has its parameters. -/
theorem map_parameterVariables (m : Method) (f : Signature) :
    (m.parameterVariables f).map (fun v => (v.name, v.ty)) = m.frame f := by
  rw [parameterVariables, frame, List.map_zipWith]
  rfl

theorem map_name_parameterVariables {m : Method} {f : Signature}
    (h : m.parameters.length = f.parameters.length) :
    (m.parameterVariables f).map Variable.name = m.parameters.map Prod.fst := by
  rw [parameterVariables, List.map_zipWith]
  change List.zipWith (fun parameter _ => parameter.1) m.parameters f.parameters = _
  rw [← List.map_uncurry_zip_eq_zipWith]
  conv_rhs => rw [← List.map_fst_zip (Nat.le_of_eq h), List.map_map]
  rfl

/-- What holds of the types of a signature holds of those of the parameters under it. -/
theorem ty_parameterVariables {P : Ty → Prop} (m : Method) {f : Signature}
    (h : ∀ ty ∈ f.parameters, P ty) : ∀ v ∈ m.parameterVariables f, P v.ty := by
  intro v hv
  rw [parameterVariables, ← List.map_uncurry_zip_eq_zipWith] at hv
  obtain ⟨⟨parameter, ty⟩, hmem, rfl⟩ := List.mem_map.mp hv
  exact h ty (List.of_mem_zip hmem).2

/-- A method that is accepted is typed under its signature, which is declared, whatever functions
are declared behind it. -/
theorem typed_of_check (hR : R.Closed) {m : Method} {u : Unit} (hc : c.AtRoot R Δ globals)
    (h : (m.check c).2.verdict = .ok u) (ho : (m.check c).2.tree.Obeys R.toRestriction) :
    ∃ f, (m.check c).2.tree.callee = some f ∧ Δ.lookup (m.name, m.parameters.length) = none ∧
      (m.check c).2.tree.name = m.name ∧ (m.check c).2.tree.parameters = m.parameters ∧
      (m.check c).1.AtRoot R (Δ ++ [((m.name, m.parameters.length), f)]) globals ∧
      ∀ more, (m.check c).2.tree.Typed R (Δ ++ [((m.name, m.parameters.length), f)] ++ more)
        globals f := by
  obtain ⟨f, next, inner, hf, hnext, hinner, hbody, heq⟩ := check_ok h
  rw [heq] at ho ⊢
  obtain ⟨hname, hlength, hparameters, hresult⟩ := hc.toSees.of_signature hR hf
  have hknowns := fun parameter hp => hR.named (hparameters parameter hp)
  obtain ⟨hroot, hfresh⟩ := hc.declareFunction hknowns (hR.named hresult) hnext
  have hkey : (f.name, f.arity) = (m.name, m.parameters.length) := by
    rw [hname, Signature.arity, hlength]
  rw [hkey] at hroot hfresh
  refine ⟨f, rfl, hfresh, rfl, rfl, hroot, fun more => ?_⟩
  obtain ⟨hallObey, hreturns⟩ := ho f rfl
  have hknown := m.ty_parameterVariables hknowns
  -- the body is checked under fewer functions than it is typed under
  obtain ⟨hsees, hdistinct, -⟩ := (hroot.toSees.widen more).enter.declareAll hknown hinner
  rw [map_parameterVariables] at hsees
  rw [map_name_parameterVariables hlength] at hdistinct
  exact ⟨hlength, hdistinct, hresult, Stmt.allTyped_of_checkAll hR hsees hbody hallObey, hreturns⟩

/-- Methods that are accepted are typed under the functions that there are in the end. -/
theorem allTyped_of_checkEach (hR : R.Closed) :
    ∀ {methods : List Method} {c : Checker} {Δ : Functions} {u : Unit}, c.AtRoot R Δ globals →
      (Program.checkEach Method.check c methods).2.verdict = .ok u →
      (∀ m ∈ (Program.checkEach Method.check c methods).2.tree, m.Obeys R.toRestriction) →
      ∃ added, (Program.checkEach Method.check c methods).1.AtRoot R (Δ ++ added) globals ∧
        Method.AllTyped R (Δ ++ added) globals Δ
          (Program.checkEach Method.check c methods).2.tree
  | [], c, Δ, u, hc, _, _ => by
    refine ⟨[], ?_⟩
    rw [List.append_nil]
    exact ⟨hc, .nil⟩
  | m :: methods, c, Δ, u, hc, h, ho => by
    obtain ⟨hfirst, hrest, hend, htrees⟩ := Program.checkEach_cons_ok h
    rw [htrees] at ho ⊢
    obtain ⟨f, hcallee, hfresh, hname, hparameters, hroot, htyped⟩ :=
      typed_of_check hR hc hfirst (ho _ (List.mem_cons_self ..))
    obtain ⟨added, hlast, hothers⟩ := allTyped_of_checkEach hR hroot hrest
      fun g hg => ho g (List.mem_cons_of_mem _ hg)
    -- `added` are the functions declared behind this method, which its body may call all the same
    refine ⟨((m.name, m.parameters.length), f) :: added, ?_⟩
    rw [hend, List.append_cons]
    rw [← hname, ← hparameters] at hfresh hothers hlast htyped ⊢
    exact ⟨hlast, .cons hcallee (htyped added) hfresh hothers⟩

end Method

/-! ## Programs -/

namespace Program

/-- What there is of a program that is accepted. -/
theorem check_ok {p : Program} {u : Unit} (h : (p.check c).2.verdict = .ok u) :
    ∃ middle last fields methods, checkEach Field.check c p.fields = (middle, ⟨fields, .ok ()⟩) ∧
      checkEach Method.check middle p.methods = (last, ⟨methods, .ok ()⟩) ∧
      checkEntry last p = .ok () ∧
      p.check c = (last, ⟨{ p with fields := fields, methods := methods }, .ok ()⟩) := by
  unfold check at h ⊢
  simp only at h ⊢
  rcases hfields : checkEach Field.check c p.fields with ⟨middle, fields, d | _⟩
  · simp only [hfields] at h
    cases h
  simp only [hfields] at h ⊢
  rcases hmethods : checkEach Method.check middle p.methods with ⟨last, methods, d | _⟩
  · simp only [hmethods] at h
    cases h
  simp only [hmethods] at h ⊢
  exact ⟨middle, last, fields, methods, rfl, hmethods, h, by rw [h]⟩

/-- A program that is accepted in the root is typed, if the filled tree keeps to the restriction. -/
theorem typed_of_check (hR : R.Closed) {p : Program} {u : Unit}
    (hc : c.AtRoot R Δ globals) (h : (p.check c).2.verdict = .ok u)
    (ho : (p.check c).2.tree.Obeys R.toRestriction) :
    ∃ functions last, (p.check c).2.tree.Typed R Δ globals functions last := by
  obtain ⟨middle, final, fields, methods, hfields, hmethods, hentry, heq⟩ := check_ok h
  rw [heq] at ho ⊢
  obtain ⟨last, htypedFields, hroot⟩ := Field.allTyped_of_checkEach hR hc
    (congrArg (·.2.verdict) hfields) (by rw [hfields]; exact ho.1)
  rw [hfields] at htypedFields hroot
  obtain ⟨added, hend, htypedMethods⟩ := Method.allTyped_of_checkEach hR hroot
    (congrArg (·.2.verdict) hmethods) (by rw [hmethods]; exact ho.2)
  rw [hmethods] at hend htypedMethods
  refine ⟨Δ ++ added, last, htypedFields, htypedMethods, ?_⟩
  rw [checkEntry] at hentry
  split at hentry
  · cases hentry
  -- the entry method is looked up without arguments
  · next f hf =>
    obtain ⟨hlookup, harity, -⟩ := hend.toSees.function? hf
    exact ⟨f, hlookup, List.length_eq_zero_iff.mp harity, Ty.isAssignable_of_require hentry⟩

end Program

end TeachLang
