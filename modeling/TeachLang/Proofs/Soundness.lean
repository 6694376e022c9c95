import TeachLang.Proofs.Preservation

/-!
# Runs of typed programs

`Discipline.call_serves` carries the discipline through calls, by induction on the fuel, and
`Discipline.program_ensures` says what a typed program comes to on a machine that matches: a value
that conforms to the result type of the entry method, or a diagnostic that is tolerated.

Every method must return or may come to its end. That this is enough rests on
`Stmt.executeAll_next`: statements of which one always returns do not come to their end.
-/

namespace TeachLang

/-! ## Returning -/

namespace Stmt

variable {host : Host} {caller : Caller} {fuel : Nat}

/-- The end of these runs is behind the last statement only if not all paths return. -/
abbrev Passes (r : Run Flow) (returns : Bool) (m : Machine) : Prop :=
  r.Ensures m (fun flow _ => flow = .next → returns = false) (fun _ _ => True)

theorem passes_false (r : Run Flow) (m : Machine) : Passes r false m := by
  unfold Passes Run.Ensures
  cases r m with
  | done flow last => exact fun _ => rfl
  | failed d last => trivial
  | exhausted => trivial

theorem passes_inBlock {r : Run Flow} {returns : Bool} (h : ∀ m, Passes r returns m) (m : Machine) :
    Passes (Run.inBlock r) returns m :=
  Run.ensures_inBlock (Run.ensures_inScope (h _))

theorem passes_bind {α : Type} {first : Run α} {next : α → Run Flow} {returns : Bool}
    (h : ∀ result m, Passes (next result) returns m) (m : Machine) :
    Passes (first >>= next) returns m := by
  refine Run.Ensures.bind ?_
  unfold Run.Ensures
  cases first m with
  | done result last => exact h result last
  | failed d last => trivial
  | exhausted => trivial

mutual

/-- A statement that returns on every path does not go on to the next. -/
theorem execute_next : ∀ (stmt : Stmt) (m : Machine),
    Passes (stmt.execute host caller fuel) stmt.returnsAlways m
  | .returns value _, m => by
    rw [execute]
    refine passes_bind (fun value m => ?_) m
    exact Run.ensures_pure fun hflow => nomatch hflow
  | .conditional condition thenBody elseBody _, m => by
    rw [execute]
    refine passes_bind (fun b m => ?_) m
    cases b with
    | true =>
      refine (passes_inBlock (executeAll_next thenBody) m).mono (fun flow last h hflow => ?_)
        fun _ _ h => h
      rw [returnsAlways, h hflow, Bool.false_and]
    | false =>
      refine (passes_inBlock (executeAll_next elseBody) m).mono (fun flow last h hflow => ?_)
        fun _ _ h => h
      rw [returnsAlways, h hflow, Bool.and_false]
  -- the body of a loop may never be run, so a loop is not taken to return
  | .expression _ _, m | .declaration _ _ _ _ _, m | .assignment _ _ _, m | .forEach _ _ _ _, m
  | .whileLoop _ _ _, m => passes_false _ m

/-- Statements of which one returns on every path do not come to their end. -/
theorem executeAll_next : ∀ (stmts : List Stmt) (m : Machine),
    Passes (executeAll host caller fuel stmts) (someReturns stmts) m
  | [], m => passes_false _ m
  | stmt :: stmts, m => by
    rw [executeAll]
    refine Run.ensures_unlessReturned ((execute_next stmt m).mono ?_ fun _ _ h => h)
    rintro (_ | value) mid hfirst
    · refine (executeAll_next stmts mid).mono (fun flow last h hflow => ?_) fun _ _ h => h
      rw [someReturns, hfirst rfl, h hflow, Bool.false_or]
    · exact fun hflow => nomatch hflow

end

end Stmt

namespace Discipline

variable {D : Discipline} {Δ : Functions} {t : Scopes Ty Callable} {id : Nat} {m : Machine}

/-! ## Calls -/

/-- A name that is not declared yet stays so when another is declared. -/
theorem fresh_declare {Γ : Context} {n x : String} {ty : Ty} (h : Γ.Fresh n) (hne : n ≠ x) :
    Context.Fresh n (Γ.declare [(x, ty)]) := by
  cases Γ with
  | nil => exact h
  | cons frame frames =>
    change (frame ++ [(x, ty)]).lookup n = none
    rw [lookup_concat, if_neg hne, Option.or_none]
    exact h

/-- Parameters are declared with arguments that conform to their types. -/
theorem declareParameters_stands {position : Position} :
    ∀ {parameters : List (String × String)} {tys : List Ty} {values : List Value}
      {t : Scopes Ty Callable} {m : Machine}, D.Stands Δ t id m → id ≠ Scopes.root →
      parameters.length = tys.length → List.Forall₂ D.conforms tys values →
      (parameters.map Prod.fst).Nodup →
      (∀ parameter ∈ parameters, Context.Fresh parameter.1 (t.view id)) →
      (Run.declareParameters position parameters values).Ensures m
        (fun _ last => D.Stands Δ
          (t.extend id (parameters.zipWith (fun parameter ty => (parameter.1, ty)) tys)) id last)
        (fun d _ => D.tolerates d)
  | [], [], _, t, m, h, _, _, .nil, _, _ => by
    rw [List.zipWith_nil_left, Scopes.extend_nil]
    exact Run.ensures_pure h
  | (n, typeName) :: parameters, ty :: tys, value :: values, t, m, h, hid, hlength,
      .cons hvalue hvalues, hdistinct, hfresh => by
    obtain ⟨hnew, hdistinct⟩ := List.nodup_cons.mp hdistinct
    -- the scope is not the root, so what functions need of the root is as it was
    obtain ⟨mid, hdeclare, hmid⟩ := h.declare (hfresh _ (List.mem_cons_self ..)) hvalue
      (h.provides.extend hid _) position
    refine Run.Ensures.bind (Run.ensures_change ?_)
    rw [hdeclare]
    refine (declareParameters_stands hmid hid (Nat.succ.inj hlength) hvalues hdistinct ?_).mono ?_
      fun _ _ h => h
    · intro parameter hparameter
      rw [view_extend h.rooted h.live]
      refine fresh_declare (hfresh _ (List.mem_cons_of_mem _ hparameter)) fun heq => ?_
      exact hnew (List.mem_map.mpr ⟨parameter, hparameter, heq⟩)
    · intro _ last hlast
      rw [Scopes.extend_extend] at hlast
      exact hlast

theorem Stands.lookupFunction (h : D.Stands Δ t id m) {n : String} {k : Nat} {f : Signature}
    (hf : Δ.lookup (n, k) = some f) (position : Position) :
    ∃ callable, m.lookupFunction n k position = .ok callable ∧
      D.Implements Δ (t.bindings Scopes.root) f callable := by
  obtain ⟨callable, hcallable, himplements⟩ := h.provides n k f hf
  refine ⟨callable, ?_, himplements⟩
  rw [Machine.lookupFunction, h.scope, Scopes.lookupFunction, ← h.related.nearestFunction?_eq,
    h.rooted.nearestFunction?_eq n k h.live, hcallable]

/-- The body of a method starts in a scope with the parameters of the method, where it is typed. -/
theorem parameters_stand {method : Method} {f : Signature} {arguments : List Value}
    (h : D.Stands Δ t id m) (hmethod : method.Typed D.toRegime Δ (t.bindings Scopes.root) f)
    (harguments : List.Forall₂ D.conforms f.parameters arguments) :
    (Run.declareParameters method.span.start method.parameters arguments).Ensures
      (m.enter Scopes.root)
      (fun _ inner =>
        D.Stands Δ ((t.child Scopes.root).extend t.fresh (method.frame f)) t.fresh inner ∧
          Stmt.AllTyped D.toRegime Δ f.result
            (((t.child Scopes.root).extend t.fresh (method.frame f)).view t.fresh) method.body)
      (fun d _ => D.tolerates d) := by
  have hroot : Scopes.root < t.depth := h.rooted.live
  have hview : (t.child Scopes.root).view t.fresh = [[], t.bindings Scopes.root] := by
    rw [h.rooted.view_child hroot, h.rooted.view_root]
  have hbody : Stmt.AllTyped D.toRegime Δ f.result
      (((t.child Scopes.root).extend t.fresh (method.frame f)).view t.fresh) method.body := by
    rw [view_extend (h.rooted.child hroot) (by rw [Scopes.depth_child]; exact Nat.lt_succ_self _),
      hview]
    exact hmethod.body
  refine (declareParameters_stands (h.enter hroot) (fresh_ne_root h.rooted) hmethod.arity harguments
    hmethod.distinct fun parameter _ => ?_).mono (fun _ _ hinner => ⟨hinner, hbody⟩) fun _ _ h => h
  rw [hview]
  exact rfl

/-- A method that is typed answers with what conforms to the type of its result. -/
theorem method_keeps (hD : D.Lawful) {caller : Caller} (hcaller : D.Serves Δ caller) (fuel : Nat)
    {method : Method} {f : Signature} {arguments : List Value} (h : D.Stands Δ t id m)
    (hmethod : method.Typed D.toRegime Δ (t.bindings Scopes.root) f)
    (harguments : List.Forall₂ D.conforms f.parameters arguments) :
    D.Keeps Δ t id (D.conforms f.result) (do
      let flow ← Run.inScope Scopes.root do
        Run.declareParameters method.span.start method.parameters arguments
        Stmt.executeAll D.host caller fuel method.body
      return Run.flowResult flow) m := by
  have hbody : D.Keeps Δ t id
      (fun flow => D.Good f.result flow ∧ (flow = .next → Stmt.someReturns method.body = false))
      (Run.inScope Scopes.root do
        Run.declareParameters method.span.start method.parameters arguments
        Stmt.executeAll D.host caller fuel method.body) m := by
    refine h.inScope (Run.Ensures.bind ((parameters_stand h hmethod harguments).mono ?_
      fun _ _ h => h))
    rintro _ inner ⟨hinner, htyped⟩
    refine ((executeAll_ends hD hcaller hmethod.result fuel hinner (fresh_ne_root h.rooted)
      htyped).and (Stmt.executeAll_next method.body inner)).mono ?_ fun _ _ h => h.1
    rintro flow last ⟨⟨⟨added, hlast⟩, hgood⟩, hnext⟩
    rw [Scopes.extend_extend] at hlast
    exact ⟨⟨_, hlast⟩, hgood, hnext⟩
  refine keeps_bind hbody ?_
  rintro (_ | value) last hlast ⟨hgood, hnext⟩
  · refine keeps_pure hlast ?_
    -- the end of the body is only come to where not all paths return, and then `NIL` will do
    rcases hmethod.returns with hreturns | hends
    · rw [hnext rfl] at hreturns
      cases hreturns
    · exact hD.ends hends hmethod.result
  · exact keeps_pure hlast hgood

/-- Calls are carried out as their signatures say. -/
theorem call_serves (hD : D.Lawful) (fuel : Nat) : D.Serves Δ (Run.call D.host fuel) := by
  -- induction on the fuel: the body of a method calls with less of it
  induction fuel with
  | zero =>
    intro t id m n arguments f position h hf harguments
    exact Run.ensures_exhausted m
  | succ fuel ih =>
    intro t id m n arguments f position h hf harguments
    obtain ⟨callable, hcallable, himplements⟩ := h.lookupFunction hf position
    rw [Run.call]
    refine Run.Ensures.bind (Run.ensures_look ?_)
    rw [hcallable]
    cases callable with
    | print => exact ⟨⟨h.scope, h.live, h.rooted, h.related, h.provides⟩, himplements⟩
    | native answer => exact keeps_ofExcept h (himplements arguments harguments)
    | method method scope =>
      obtain ⟨rfl, -, hmethod⟩ := himplements
      exact method_keeps hD ih fuel h hmethod harguments

/-! ## Programs -/

/-- Functions and what they mean in the root, under the same keys. -/
def Carries (D : Discipline) (Δ : Functions) (globals : Frame) (before : Functions)
    (t : Scopes Ty Callable) : Prop :=
  ∀ n k, Option.Rel (D.Implements Δ globals) (before.lookup (n, k))
    (t.functionIn? n k Scopes.root)

/-- A machine before a program runs: it stands in the root, whose variables and functions are those
that the host supplies. None of these is a method of a program. -/
structure Ready (D : Discipline) (before : Functions) (host : Frame) (t : Scopes Ty Callable)
    (m : Machine) : Prop where
  /-- it stands in the root -/
  stands : D.Stands before t Scopes.root m
  /-- what the host supplies does not depend on the program -/
  carries : ∀ Δ globals, D.Carries Δ globals before t
  /-- the variables of the root -/
  bindings : t.bindings Scopes.root = host

theorem Carries.provides {globals : Frame} (h : D.Carries Δ globals Δ t)
    (hglobals : t.bindings Scopes.root = globals) : D.Provides Δ t := by
  intro n k f hf
  have hrel := h n k
  rw [hf] at hrel
  cases hcallable : t.functionIn? n k Scopes.root with
  | none =>
    rw [hcallable] at hrel
    cases hrel
  | some callable =>
    rw [hcallable] at hrel
    cases hrel with
    | some himplements => exact ⟨callable, rfl, hglobals ▸ himplements⟩

theorem Carries.extend {globals : Frame} {before : Functions} (h : D.Carries Δ globals before t)
    (id : Nat) (added : Frame) : D.Carries Δ globals before (t.extend id added) := by
  intro n k
  rw [Scopes.functionIn?_extend]
  exact h n k

/-- A method that is typed is carried along with the functions before it. -/
theorem Carries.addFunction {globals : Frame} {before : Functions} (ht : t.Rooted)
    (h : D.Carries Δ globals before t) {n : String} {k : Nat} {f : Signature} {callable : Callable}
    (himplements : D.Implements Δ globals f callable) :
    D.Carries Δ globals (before ++ [((n, k), f)]) (t.addFunction (n, k) callable) := by
  intro n' k'
  rw [lookup_concat, ht.functionIn?_addFunction]
  have hrel := h n' k'
  generalize before.lookup (n', k') = a at hrel ⊢
  generalize t.functionIn? n' k' Scopes.root = b at hrel ⊢
  cases hrel with
  | some hold => exact .some hold
  | none =>
    -- an older function under the same key is found on both sides, the new one only without it
    rw [Option.none_or, Option.none_or]
    split
    · exact .some himplements
    · exact .none

/-- The root is where a machine that stands there declares. -/
theorem declareInRoot_eq (h : m.scope = Scopes.root) (n : String) (value : Value)
    (position : Position) : m.declareInRoot n value position = m.declare n value position := by
  obtain ⟨scopes, scope, printer⟩ := m
  obtain rfl : scope = Scopes.root := h
  rfl

variable {before : Functions} {host : Frame}

/-- A field is declared with a value of its type. -/
theorem Ready.declare (h : D.Ready before host t m) {n : String} {ty : Ty} {value : Value}
    (hfresh : host.lookup n = none) (hvalue : D.conforms ty value) (position : Position) :
    ∃ last, m.declareInRoot n value position = .ok last ∧
      D.Ready before (host ++ [(n, ty)]) (t.extend Scopes.root [(n, ty)]) last := by
  have hview : Context.Fresh n (t.view Scopes.root) := by
    rw [h.stands.rooted.view_root, h.bindings]
    exact hfresh
  have hcarries := fun Δ globals => (h.carries Δ globals).extend Scopes.root [(n, ty)]
  obtain ⟨last, hdeclare, hlast⟩ := h.stands.declare hview hvalue
    ((hcarries before _).provides rfl) position
  refine ⟨last, ?_, hlast, hcarries, ?_⟩
  · rw [declareInRoot_eq h.stands.scope, hdeclare]
  · rw [Scopes.bindings_extend_self h.stands.live, h.bindings]

/-- The first value of a field conforms to its type. -/
theorem Ready.value_keeps (hD : D.Lawful) (h : D.Ready before host t m) {ty : Ty}
    {value : Option Expr} (hstarts : Expr.Starts D.toRegime before [host] ty value) (fuel : Nat) :
    D.Keeps before t Scopes.root (D.conforms ty)
      (value.elim (Run.pure .nil) (Run.evaluate D.host fuel)) m := by
  cases hstarts with
  | unset hunset hknown => exact keeps_pure h.stands (hD.unset hunset hknown)
  | value he haccepts =>
    -- the methods are not declared yet, and a field can only call what the host supplies
    rw [← h.bindings, ← h.stands.rooted.view_root] at he
    have hcaller : D.Serves before (Run.call D.host fuel) := call_serves hD fuel
    exact (evaluate_keeps hD hcaller h.stands he).mono
      (fun _ _ hlast => ⟨hlast.1, hD.accepts haccepts hlast.2⟩) fun _ _ h => h

/-- Fields that are typed are declared, each with a value of its type. -/
theorem defineFields_ensures (hD : D.Lawful) (fuel : Nat) {fields : List Field} {last : Frame}
    (hfields : Field.AllTyped D.toRegime before host fields last) :
    ∀ {t : Scopes Ty Callable} {m : Machine}, D.Ready before host t m →
      (Run.defineFields D.host fuel fields).Ensures m (fun _ m' => ∃ t', D.Ready before last t' m')
        (fun d _ => D.tolerates d) := by
  induction hfields with
  | nil => intro t m h; exact Run.ensures_pure ⟨t, h⟩
  | @cons globals last f v fields hv hstarts hfresh _ ih =>
    intro t m h
    have hvalue := h.value_keeps hD hstarts fuel
    rw [Run.defineFields]
    refine Run.Ensures.bind (hvalue.mono ?_ fun _ _ h => h)
    rintro value mid ⟨hmid, hconforms⟩
    obtain ⟨next, hdeclare, hnext⟩ :=
      Ready.declare ⟨hmid, h.carries, h.bindings⟩ hfresh hconforms f.span.start
    refine Run.Ensures.bind (Run.ensures_change ?_)
    rw [hdeclare]
    exact ih hnext

/-- A method that is typed is declared behind the functions that were there. -/
theorem Carries.declareMethod {globals : Frame} {method : Method} {f : Signature}
    (hcarries : D.Carries Δ globals before t) (h : D.Stands [] t Scopes.root m)
    (hcallee : method.callee = some f) (hmethod : method.Typed D.toRegime Δ globals f)
    (hfresh : before.lookup (method.name, method.parameters.length) = none)
    (position : Position) :
    ∃ last, m.declareFunction method.name method.parameters.length (.method method Scopes.root)
        position = .ok last ∧
      D.Stands [] (t.addFunction (method.name, method.parameters.length)
        (.method method Scopes.root)) Scopes.root last ∧
      D.Carries Δ globals (before ++ [((method.name, method.parameters.length), f)])
        (t.addFunction (method.name, method.parameters.length) (.method method Scopes.root)) := by
  -- the checker found the key free, so it is free for the machine, which carries the same
  have hnone : m.scopes.functionIn? method.name method.parameters.length Scopes.root = none := by
    have hrel := hcarries method.name method.parameters.length
    rw [hfresh] at hrel
    rw [← h.related.functionIn?_eq]
    cases ht : t.functionIn? method.name method.parameters.length Scopes.root with
    | none => rfl
    | some callable =>
      rw [ht] at hrel
      cases hrel
  obtain ⟨scopes, scope, printer⟩ := m
  refine ⟨⟨scopes.addFunction _ (.method method Scopes.root), scope, printer⟩, ?_,
    ⟨h.scope, ?_, h.rooted.addFunction _ _, h.related.addFunction _ _, fun n k f hf => nomatch hf⟩,
    hcarries.addFunction h.rooted ⟨rfl, hcallee, hmethod⟩⟩
  · rw [Machine.declareFunction, Machine.changeScopes, Scopes.defineFunction_eq hnone]
  · rw [Scopes.depth_addFunction]
    exact h.live

/-- Methods that are typed are declared. -/
theorem defineMethods_ensures {globals : Frame} {methods : List Method}
    (hmethods : Method.AllTyped D.toRegime Δ globals before methods) :
    ∀ {t : Scopes Ty Callable} {m : Machine}, D.Stands [] t Scopes.root m →
      D.Carries Δ globals before t → t.bindings Scopes.root = globals →
      (Run.defineMethods methods).Ensures m (fun _ m' => ∃ t', D.Stands Δ t' Scopes.root m')
        (fun d _ => D.tolerates d) := by
  induction hmethods with
  | nil =>
    intro t m h hcarries hglobals
    exact Run.ensures_pure ⟨t, h.scope, h.live, h.rooted, h.related, hcarries.provides hglobals⟩
  | @cons before method f methods hcallee hmethod hfresh _ ih =>
    intro t m h hcarries hglobals
    obtain ⟨last, hdeclare, hlast, hnext⟩ :=
      hcarries.declareMethod h hcallee hmethod hfresh method.span.start
    rw [Run.defineMethods]
    refine Run.Ensures.bind (Run.ensures_change ?_)
    rw [hdeclare]
    exact ih hlast hnext ((Scopes.bindings_addFunction ..).trans hglobals)

/-- A typed program comes to a value that conforms to what its entry method promises, which is a
whole number, or to a diagnostic that is tolerated. -/
theorem program_ensures (hD : D.Lawful) {p : Program} {globals : Frame}
    (hp : p.Typed D.toRegime before host Δ globals) (h : D.Ready before host t m) (fuel : Nat) :
    (Run.program D.host fuel p).Ensures m (fun value _ => D.conforms .integer value)
      (fun d _ => D.tolerates d) := by
  refine Run.Ensures.bind ((defineFields_ensures hD fuel hp.fields h).mono ?_ fun _ _ h => h)
  rintro _ mid ⟨t', hmid⟩
  have hstands : D.Stands [] t' Scopes.root mid :=
    ⟨hmid.stands.scope, hmid.stands.live, hmid.stands.rooted, hmid.stands.related,
      fun n k f hf => nomatch hf⟩
  refine Run.Ensures.bind ((defineMethods_ensures hp.methods hstands
    (hmid.carries Δ globals) hmid.bindings).mono ?_ fun _ _ h => h)
  rintro _ last ⟨t'', hlast⟩
  obtain ⟨f, hf, hparameters, hinteger⟩ := hp.entry
  refine (call_serves hD fuel hlast hf (hparameters ▸ .nil)).mono ?_ fun _ _ h => h
  rintro value _ ⟨-, hvalue⟩
  exact hD.accepts ⟨hD.closed.known_builtin (by simp [Ty.builtins]), hinteger⟩ hvalue

end Discipline

end TeachLang
