import TeachLang.Proofs.Accepted
import TeachLang.Proofs.Soundness

/-!
# Hosts

A host supplies variables and functions to a program: types and signatures to the checker, values
and what they do to the machine. `Checker.ofHost` and `Machine.ofHost` are a checker and a machine
with what a host supplies. Neither depends on the order in which the other got its part, as long as
both have the same names.
-/

namespace TeachLang

/-- The key of a function among functions. -/
def Signature.key (f : Signature) : String × Nat := (f.name, f.arity)

/-- A checker that knows the variables and functions that a host supplies. -/
def Checker.ofHost (registry : Registry) (types : List (String × Ty))
    (functions : List Signature) : Except Diagnostic Checker := do
  let c ← types.foldlM (fun c v => c.defineVariable v.1 v.2) (.ofRegistry registry)
  functions.foldlM Checker.defineFunction c

/-- A machine that has the variables and functions that a host supplies. -/
def Machine.ofHost (printer : Printer) (values : List (String × Value))
    (natives : List ((String × Nat) × Native)) : Except Diagnostic Machine := do
  let m ← values.foldlM (fun m v => m.defineVariable v.1 v.2) (.ofPrinter printer)
  natives.foldlM (fun m f => m.defineFunction f.1.1 f.1.2 f.2) m

/-! ## Lists of entries -/

variable {K V W : Type} [BEq K] [LawfulBEq K]

theorem lookup_map_key (entries : List (K × V)) (g : K → W) (key : K) :
    (entries.map fun entry => (entry.1, g entry.1)).lookup key =
      (entries.lookup key).map fun _ => g key := by
  induction entries with
  | nil => rfl
  | cons entry entries ih =>
    rw [List.map_cons, List.lookup_cons, List.lookup_cons]
    by_cases hkey : key = entry.1
    · rw [beq_iff_eq.mpr hkey, hkey]
      rfl
    · rw [beq_eq_false_iff_ne.mpr hkey]
      exact ih

theorem isSome_lookup_iff {entries : List (K × V)} {key : K} :
    (entries.lookup key).isSome ↔ key ∈ entries.map Prod.fst := by
  induction entries with
  | nil => simp
  | cons entry entries ih =>
    rw [List.lookup_cons, List.map_cons, List.mem_cons]
    by_cases hkey : key = entry.1
    · simp [hkey]
    · rw [beq_eq_false_iff_ne.mpr hkey, ih]
      exact (or_iff_right hkey).symm

/-- Entries in the order of others with the same keys. -/
def reorder (entries : List (K × V)) (others : List (K × W)) (default : V) : List (K × V) :=
  others.map fun other => (other.1, (entries.lookup other.1).getD default)

theorem lookup_reorder {entries : List (K × V)} {others : List (K × W)} (default : V)
    (h : ∀ key, key ∈ entries.map Prod.fst ↔ key ∈ others.map Prod.fst) (key : K) :
    (reorder entries others default).lookup key = entries.lookup key := by
  rw [reorder, lookup_map_key others fun key => (entries.lookup key).getD default]
  have hsome : (entries.lookup key).isSome = (others.lookup key).isSome := by
    rw [Bool.eq_iff_iff, isSome_lookup_iff, isSome_lookup_iff, h]
  cases he : entries.lookup key <;> cases ho : others.lookup key <;> rw [he, ho] at hsome <;>
    simp_all

theorem mem_of_lookup {entries : List (K × V)} {key : K} {value : V}
    (h : entries.lookup key = some value) : (key, value) ∈ entries := by
  induction entries with
  | nil => cases h
  | cons entry entries ih =>
    rw [List.lookup_cons] at h
    split at h
    · next hkey =>
      obtain rfl := Option.some.inj h
      rw [beq_iff_eq.mp hkey]
      exact List.mem_cons_self ..
    · exact List.mem_cons_of_mem _ (ih h)

/-- What holds at the start, and is kept by each step of a list, holds at the end. -/
theorem foldlM_ok {S T : Type} {step : S → T → Except Diagnostic S} {P : List T → S → Prop} :
    ∀ (before : List T) {items : List T} {start last : S},
      (∀ before, ∀ item ∈ items, ∀ s s', P before s → step s item = .ok s' →
        P (before ++ [item]) s') →
      P before start → items.foldlM step start = .ok last → P (before ++ items) last
  | before, [], start, last, _, hstart, h => by
    obtain rfl := Except.ok.inj h
    rwa [List.append_nil]
  | before, item :: items, start, last, hstep, hstart, h => by
    rw [List.foldlM_cons] at h
    obtain ⟨next, hnext, hrest⟩ := ok_of_bind h
    rw [List.append_cons]
    exact foldlM_ok _ (fun before x hx => hstep before x (List.mem_cons_of_mem _ hx))
      (hstep before item (List.mem_cons_self ..) start next hstart hnext) hrest

/-! ## The checker -/

variable {R : Regime} {Δ : Functions} {c : Checker} {globals : Frame}

/-- What every checker knows before anything is supplied. -/
theorem Checker.atRoot_ofRegistry (hR : R.Closed) {registry : Registry}
    (htypes : ∀ ty ∈ registry.types, R.nameable ty) :
    (Checker.ofRegistry registry).AtRoot R [(Signature.print.key, .print)] [] := by
  have hlookup : ∀ n k, (Checker.ofRegistry registry).scopes.functionIn? n k Scopes.root =
      List.lookup (n, k) [(Signature.print.key, Signature.print)] :=
    Scopes.functionIn?_ofFunctions _
  refine ⟨⟨Scopes.rooted_ofFunctions _, Nat.one_pos, ?_, fun {n k f} hf => ?_,
      fun {ty} => htypes ty⟩,
    rfl, fun {n k} hf => (hlookup n k).symm.trans hf⟩
  · change List.Forall₂ _ ((Scopes.ofFunctions _ : Scopes Variable Signature).view Scopes.root) _
    rw [(Scopes.rooted_ofFunctions _).view_root]
    exact .cons (fun n => .none) .nil
  · rw [hlookup] at hf
    refine ⟨hf, ?_⟩
    have hmem := mem_of_lookup hf
    rw [List.mem_singleton] at hmem
    obtain ⟨hkey, rfl⟩ := Prod.mk.inj hmem
    refine ⟨(congrArg Prod.snd hkey).symm, ?_,
      hR.known_builtin (by simp [Ty.builtins, Signature.print])⟩
    intro parameter hparameter
    obtain rfl := List.mem_singleton.mp hparameter
    exact hR.known_builtin (by simp [Ty.builtins])

/-- Only what is found under which key matters, not the order. -/
theorem Checker.AtRoot.reorder {Δ' : Functions} {globals' : Frame} (h : c.AtRoot R Δ globals)
    (hΔ : ∀ key, Δ'.lookup key = Δ.lookup key)
    (hglobals : ∀ n, globals'.lookup n = globals.lookup n) : c.AtRoot R Δ' globals' := by
  refine ⟨⟨h.rooted, h.live, ?_, fun hf => ?_, h.types⟩, h.outermost, fun hf => ?_⟩
  · have hreach := h.inReach
    generalize c.scopes.view c.scope = view at hreach ⊢
    cases hreach with
    | cons hfirst hothers =>
      refine .cons (fun n => ?_) hothers
      rw [hglobals]
      exact hfirst n
  · rw [hΔ]
    exact h.functions hf
  · rw [hΔ]
    exact h.exact hf

theorem Checker.AtRoot.defineVariable (h : c.AtRoot R Δ globals) {n : String} {ty : Ty}
    {next : Checker} (hty : R.known ty) (hd : c.defineVariable n ty = .ok next) :
    next.AtRoot R Δ (globals ++ [(n, ty)]) := by
  have hdeclare : c.declare (.plain n ty) .nowhere = .ok next := by
    rw [← hd, Checker.declare, Checker.defineVariable, h.outermost]
    rfl
  exact (h.declare hty hdeclare).1

theorem Checker.AtRoot.defineFunction (h : c.AtRoot R Δ globals) {f : Signature} {next : Checker}
    (hparameters : ∀ parameter ∈ f.parameters, R.known parameter) (hresult : R.known f.result)
    (hd : c.defineFunction f = .ok next) : next.AtRoot R (Δ ++ [(f.key, f)]) globals := by
  have hdeclare : c.declareFunction f .nowhere = .ok next := by
    rw [← hd, Checker.declareFunction, Checker.defineFunction, h.outermost]
  exact (h.declareFunction hparameters hresult hdeclare).1

/-- A checker knows what the host supplies. -/
theorem Checker.atRoot_ofHost (hR : R.Closed) {registry : Registry} {types : List (String × Ty)}
    {functions : List Signature} (hregistry : ∀ ty ∈ registry.types, R.nameable ty)
    (htypes : ∀ v ∈ types, R.known v.2)
    (hfunctions : ∀ f ∈ functions, (∀ parameter ∈ f.parameters, R.known parameter) ∧
      R.known f.result)
    (h : Checker.ofHost registry types functions = .ok c) :
    c.AtRoot R ((Signature.print.key, .print) :: functions.map fun f => (f.key, f)) types := by
  obtain ⟨mid, hmid, hlast⟩ := ok_of_bind h
  -- first the variables, then the functions, as `Checker.ofHost` defines them
  have hvariables := foldlM_ok []
    (P := fun before c => c.AtRoot R [(Signature.print.key, .print)] before)
    (fun before v hv s s' hs hd => hs.defineVariable (htypes v hv) hd)
    (Checker.atRoot_ofRegistry hR hregistry) hmid
  exact foldlM_ok []
    (P := fun before c =>
      c.AtRoot R ((Signature.print.key, .print) :: before.map fun f => (f.key, f)) types)
    (fun before f hf s s' hs hd => by
      rw [List.map_append]
      exact hs.defineFunction (hfunctions f hf).1 (hfunctions f hf).2 hd)
    hvariables hlast

/-! ## The machine -/

namespace Discipline

variable {D : Discipline} {before : Functions} {host : Frame} {t : Scopes Ty Callable} {m : Machine}

/-- What every machine has before anything is supplied. -/
theorem ready_ofPrinter (hD : D.Lawful) (printer : Printer) :
    ∃ t, D.Ready [(Signature.print.key, .print)] [] t (Machine.ofPrinter printer) := by
  have hcarries : ∀ Δ globals, D.Carries Δ globals [(Signature.print.key, .print)]
      (.ofFunctions [(Signature.print.key, .print)]) := by
    intro Δ globals n k
    rw [Scopes.functionIn?_ofFunctions, List.lookup_cons, List.lookup_cons]
    split
    · exact .some (hD.literal .nil)
    · exact .none
  refine ⟨.ofFunctions [(Signature.print.key, .print)], ⟨rfl, Nat.one_pos,
    Scopes.rooted_ofFunctions _, fun id => ?_, (hcarries _ _).provides rfl⟩, hcarries, rfl⟩
  change Option.Rel _
    (#[(.ofLists none [] [(Signature.print.key, .print)] : Scope Ty Callable)][id]?)
    (#[(.ofLists none [] [(Signature.print.key, .print)] : Scope Value Callable)][id]?)
  -- there is only the root
  cases id with
  | zero => exact .some ⟨rfl, rfl, .nil⟩
  | succ id => exact .none

theorem Ready.defineVariable (h : D.Ready before host t m) {n : String} {ty : Ty} {value : Value}
    {next : Machine} (hvalue : D.conforms ty value) (hd : m.defineVariable n value = .ok next) :
    ∃ t', D.Ready before (host ++ [(n, ty)]) t' next := by
  have hfresh : host.lookup n = none := by
    cases hn : host.lookup n with
    | none => rfl
    | some found =>
      -- the name is taken, so the definition would have failed
      have hsome := isSome_eq_of_rel (h.stands.related.variableIn? n Scopes.root)
      rw [Scopes.variableIn?_eq, h.bindings, hn] at hsome
      obtain ⟨held, hheld⟩ := Option.isSome_iff_exists.mp hsome.symm
      obtain ⟨scopes, scope, printer⟩ := m
      rw [Machine.defineVariable, Machine.declareInRoot, Machine.changeScopes,
        Scopes.defineVariable, hheld] at hd
      cases hd
  obtain ⟨last, hlast, hready⟩ := h.declare hfresh hvalue .nowhere
  obtain rfl := Except.ok.inj (hlast.symm.trans hd)
  exact ⟨_, hready⟩

theorem Ready.defineFunction (h : D.Ready before host t m) {n : String} {k : Nat} {f : Signature}
    {answer : Native} {next : Machine}
    (hanswer : ∀ arguments, List.Forall₂ D.conforms f.parameters arguments →
      Answers (D.conforms f.result) D.tolerates (answer arguments))
    (hd : m.defineFunction n k answer = .ok next) :
    ∃ t', D.Ready (before ++ [((n, k), f)]) host t' next := by
  obtain ⟨scopes, scope, printer⟩ := m
  rw [Machine.defineFunction, Machine.declareFunction, Machine.changeScopes] at hd
  split at hd
  · next changed hchanged =>
    obtain rfl := Except.ok.inj hd
    obtain ⟨-, rfl⟩ := Scopes.eq_addFunction_of_defineFunction hchanged
    have hcarries : ∀ Δ globals, D.Carries Δ globals (before ++ [((n, k), f)])
        (t.addFunction (n, k) (.native answer)) :=
      fun Δ globals => (h.carries Δ globals).addFunction h.stands.rooted hanswer
    have hbindings := (Scopes.bindings_addFunction t (n, k) (.native answer) Scopes.root).trans
      h.bindings
    refine ⟨t.addFunction (n, k) (.native answer), ⟨h.stands.scope, ?_,
      h.stands.rooted.addFunction _ _, h.stands.related.addFunction _ _,
      (hcarries _ _).provides rfl⟩, hcarries, hbindings⟩
    rw [Scopes.depth_addFunction]
    exact h.stands.live
  · cases hd

/-- A machine is ready for the program with what the host supplies, if values conform to their
types and functions do what their signatures say. -/
theorem ready_ofHost (hD : D.Lawful) {printer : Printer} {values : List (String × Value)}
    {natives : List ((String × Nat) × Native)} (tyOf : String → Ty)
    (signatureOf : String × Nat → Signature)
    (hvalues : ∀ v ∈ values, D.conforms (tyOf v.1) v.2)
    (hnatives : ∀ f ∈ natives, ∀ arguments,
      List.Forall₂ D.conforms (signatureOf f.1).parameters arguments →
        Answers (D.conforms (signatureOf f.1).result) D.tolerates (f.2 arguments))
    (h : Machine.ofHost printer values natives = .ok m) :
    ∃ t, D.Ready ((Signature.print.key, .print) :: natives.map fun f => (f.1, signatureOf f.1))
      (values.map fun v => (v.1, tyOf v.1)) t m := by
  obtain ⟨mid, hmid, hlast⟩ := ok_of_bind h
  have hvariables := foldlM_ok []
    (P := fun before m => ∃ t, D.Ready [(Signature.print.key, .print)]
      (before.map fun v => (v.1, tyOf v.1)) t m)
    (fun before v hv s s' ⟨t, hs⟩ hd => by
      rw [List.map_append]
      exact hs.defineVariable (hvalues v hv) hd)
    (ready_ofPrinter hD printer) hmid
  exact foldlM_ok []
    (P := fun (before : List ((String × Nat) × Native)) (m : Machine) => ∃ t,
      D.Ready ((Signature.print.key, .print) :: before.map fun f => (f.1, signatureOf f.1))
        (values.map fun v => (v.1, tyOf v.1)) t m)
    (fun before f hf s s' ⟨t, hs⟩ hd => by
      rw [List.map_append]
      exact hs.defineFunction (hnatives f hf) hd)
    hvariables hlast

/-! ## Both together -/

/-- What a host supplies to a checker and a machine: the same names on both sides, types that are
known, values that conform to their types and functions that do what their signatures say. -/
structure Supplies (D : Discipline) (types : List (String × Ty)) (functions : List Signature)
    (values : List (String × Value)) (natives : List ((String × Nat) × Native)) : Prop where
  /-- the variables have the same names -/
  names : ∀ n, n ∈ types.map Prod.fst ↔ n ∈ values.map Prod.fst
  /-- the functions have the same names and numbers of parameters -/
  keys : ∀ key, key ∈ functions.map Signature.key ↔ key ∈ natives.map Prod.fst
  /-- the types of variables -/
  known : ∀ v ∈ types, D.known v.2
  /-- the types in signatures -/
  signatures : ∀ f ∈ functions, (∀ parameter ∈ f.parameters, D.known parameter) ∧ D.known f.result
  /-- the values of variables -/
  conform : ∀ {n ty value}, (n, ty) ∈ types → (n, value) ∈ values → D.conforms ty value
  /-- what functions answer -/
  answers : ∀ {f answer}, f ∈ functions → (f.key, answer) ∈ natives → ∀ arguments,
    List.Forall₂ D.conforms f.parameters arguments →
      Answers (D.conforms f.result) D.tolerates (answer arguments)

/-- A program that is accepted with what a host supplies is typed, and the machine is ready for
it. -/
theorem Supplies.typed_and_ready (hD : D.Lawful) {types : List (String × Ty)}
    {functions : List Signature} {values : List (String × Value)}
    {natives : List ((String × Nat) × Native)} (h : D.Supplies types functions values natives)
    {registry : Registry} (hregistry : ∀ ty ∈ registry.types, D.nameable ty) {printer : Printer}
    {c : Checker} (hc : Checker.ofHost registry types functions = .ok c)
    (hm : Machine.ofHost printer values natives = .ok m) {p : Program} {u : Unit}
    (hp : (p.check c).2.verdict = .ok u) (ho : (p.check c).2.tree.Obeys D.toRestriction) :
    ∃ before host Δ globals t, (p.check c).2.tree.Typed D.toRegime before host Δ globals ∧
      D.Ready before host t m ∧ ∀ n, host.lookup n = types.lookup n := by
  have hkeys : (functions.map fun f => (f.key, f)).map Prod.fst = functions.map Signature.key := by
    rw [List.map_map]
    rfl
  obtain ⟨t, hready⟩ := ready_ofHost hD
    (fun n => (types.lookup n).getD .any)
    (fun key => ((functions.map fun f => (f.key, f)).lookup key).getD .print)
    (fun v hv => by
      obtain ⟨ty, hty⟩ := Option.isSome_iff_exists.mp
        (isSome_lookup_iff.mpr ((h.names v.1).mpr (List.mem_map_of_mem hv)))
      rw [hty]
      exact h.conform (mem_of_lookup hty) hv)
    (fun f hf => by
      have hkey := (h.keys f.1).mpr (List.mem_map_of_mem hf)
      rw [← hkeys] at hkey
      obtain ⟨g, hg⟩ := Option.isSome_iff_exists.mp (isSome_lookup_iff.mpr hkey)
      obtain ⟨g', hg', heq⟩ := List.mem_map.mp (mem_of_lookup hg)
      obtain ⟨hkey, rfl⟩ := Prod.mk.inj heq
      rw [hg]
      exact h.answers hg' (hkey ▸ hf))
    hm
  have hroot := Checker.atRoot_ofHost hD.closed hregistry h.known h.signatures hc
  have hfunctions : ∀ key, List.lookup key ((Signature.print.key, .print) ::
      reorder (functions.map fun f => (f.key, f)) natives .print) =
      List.lookup key ((Signature.print.key, .print) :: functions.map fun f => (f.key, f)) := by
    intro key
    rw [List.lookup_cons, List.lookup_cons, lookup_reorder]
    intro key
    rw [hkeys]
    exact h.keys key
  -- the checker and the machine were given the names in orders of their own
  have hreordered := hroot.reorder hfunctions (lookup_reorder .any h.names)
  obtain ⟨Δ, globals, htyped⟩ := Program.typed_of_check hD.closed hreordered hp ho
  exact ⟨_, _, Δ, globals, t, htyped, hready, lookup_reorder _ h.names⟩

/-- A program that is accepted with what a host supplies comes to a whole number, or to a diagnostic
that is tolerated. -/
theorem Supplies.program_ensures (hD : D.Lawful) {types : List (String × Ty)}
    {functions : List Signature} {values : List (String × Value)}
    {natives : List ((String × Nat) × Native)} (h : D.Supplies types functions values natives)
    {registry : Registry} (hregistry : ∀ ty ∈ registry.types, D.nameable ty) {printer : Printer}
    {c : Checker} (hc : Checker.ofHost registry types functions = .ok c)
    (hm : Machine.ofHost printer values natives = .ok m) {p : Program} {u : Unit}
    (hp : (p.check c).2.verdict = .ok u) (ho : (p.check c).2.tree.Obeys D.toRestriction)
    (fuel : Nat) :
    (Run.program D.host fuel (p.check c).2.tree).Ensures m
      (fun value _ => D.conforms .integer value) (fun d _ => D.tolerates d) := by
  obtain ⟨before, host, Δ, globals, t, htyped, hready, -⟩ :=
    h.typed_and_ready hD hregistry hc hm hp ho
  exact Discipline.program_ensures hD htyped hready fuel

end Discipline

end TeachLang
