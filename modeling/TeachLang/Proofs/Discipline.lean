import TeachLang.Proofs.Ensures
import TeachLang.Proofs.Related
import TeachLang.Proofs.Typed

/-!
# Disciplines

A **discipline** says which values conform to a type and which diagnostics a run may end with. It
is **lawful** if whatever an expression does with conforming values gives a conforming value or a
diagnostic that is tolerated. What runs of typed programs have in common is shown once, for every
lawful discipline.

* `Discipline.Stands` is what holds between the steps of a run: the scopes of the machine are those
  that the types say, with a conforming value for each variable.
* `Discipline.Serves` is what is asked of a caller.
-/

namespace TeachLang

/-- The items of a value, or the fault of having none. -/
def Value.elements (value : Value) (position : Position) : Except Diagnostic (List Value) :=
  match value with
  | .iterable _ items => .ok items
  | value => .error ⟨.notIterable value.ty.name, position⟩

/-- What is asked of a program and its values, and what may go wrong. -/
structure Discipline extends Regime where
  /-- what the methods of records do -/
  host : Host
  /-- which values may stand where a type is expected -/
  conforms : Ty → Value → Prop
  /-- the diagnostics that a run may end with -/
  tolerates : Diagnostic → Prop

/-- Whatever an expression does with conforming values is as its type says, or tolerated. -/
structure Discipline.Lawful (D : Discipline) : Prop where
  /-- all types that a program comes across are known -/
  closed : D.toRegime.Closed
  /-- constants conform to their types -/
  literal : ∀ value, D.conforms value.ty (.ofLiteral value)
  /-- what conforms to a type conforms to each that takes it -/
  accepts : ∀ {target source value}, D.Accepts target source → D.conforms source value →
    D.conforms target value
  /-- variables may be without a first value -/
  unset : ∀ {ty}, D.unset → D.nameable ty → D.conforms ty .nil
  /-- methods may come to their end -/
  ends : ∀ {ty}, D.ends ty → D.nameable ty → D.conforms ty .nil
  /-- what a method returns conforms to its result type -/
  returned : ∀ {result ty value}, D.returned result ty → D.nameable result → D.conforms ty value →
    D.conforms result value
  /-- operators on values are as their table says -/
  apply : ∀ {operator a b ty left right}, D.operands operator a b →
    operator.result? a b = some ty → D.conforms a left → D.conforms b right →
    ∀ position, Answers (D.conforms ty) D.tolerates (Value.apply operator left right position)
  /-- conditions are truth values -/
  truth : ∀ {value}, D.conforms .boolean value →
    ∀ position, Answers (fun _ => True) D.tolerates (value.truth position)
  /-- loops run over whole numbers -/
  elements : ∀ {value}, D.conforms .integerIterable value →
    ∀ position, Answers (∀ item ∈ ·, D.conforms .integer item) D.tolerates
      (value.elements position)
  /-- values have the fields of their types -/
  field : ∀ {owner n v value}, D.known owner → owner.field? n = some v → D.conforms owner value →
    ∀ position, Answers (D.conforms v.ty) D.tolerates (value.field n position)
  /-- a field may be given another value -/
  withField : ∀ {owner n v value part new}, D.known owner → owner.field? n = some v →
    D.conforms owner value → value.field? n = some part → D.conforms v.ty new →
    D.conforms owner (value.withField n new)
  /-- values have the methods of their types -/
  method : ∀ {owner n f value arguments}, D.known owner →
    owner.method? n arguments.length = some f → D.conforms owner value →
    List.Forall₂ D.conforms f.parameters arguments →
    ∀ position, Answers (D.conforms f.result) D.tolerates
      (value.callMethod D.host n arguments position)

namespace Discipline

variable {D : Discipline}

/-! ## Machines -/

/-- What is called does what a signature says. -/
def Implements (D : Discipline) (Δ : Functions) (globals : Frame) (f : Signature) :
    Callable → Prop
  | .print => D.conforms f.result .nil
  | .native answer => ∀ arguments, List.Forall₂ D.conforms f.parameters arguments →
    Answers (D.conforms f.result) D.tolerates (answer arguments)
  | .method m scope =>
    scope = Scopes.root ∧ m.callee = some f ∧ m.Typed D.toRegime Δ globals f

/-- Every function is there and does what its signature says. -/
def Provides (D : Discipline) (Δ : Functions) (t : Scopes Ty Callable) : Prop :=
  ∀ n k f, Δ.lookup (n, k) = some f → ∃ callable,
    t.functionIn? n k Scopes.root = some callable ∧
      D.Implements Δ (t.bindings Scopes.root) f callable

/-- A machine stands in a place among scopes that are known by the types of their variables. -/
structure Stands (D : Discipline) (Δ : Functions) (t : Scopes Ty Callable) (id : Nat)
    (m : Machine) : Prop where
  /-- it is in that place -/
  scope : m.scope = id
  /-- the place is there -/
  live : id < t.depth
  /-- the scopes are nested in a root -/
  rooted : t.Rooted
  /-- each variable has a value that conforms to its type -/
  related : Scopes.Related D.conforms t m.scopes
  /-- calls find what they need -/
  provides : D.Provides Δ t

/-- A caller carries out every call that signatures allow, and leaves the machine in its place. -/
def Serves (D : Discipline) (Δ : Functions) (caller : Caller) : Prop :=
  ∀ ⦃t id m n arguments f position⦄, D.Stands Δ t id m →
    Δ.lookup (n, arguments.length) = some f → List.Forall₂ D.conforms f.parameters arguments →
    (caller n arguments position).Ensures m
      (fun value last => D.Stands Δ t id last ∧ D.conforms f.result value)
      (fun d _ => D.tolerates d)

/-- Arguments that are accepted conform to the parameters. -/
theorem Lawful.accepts_all (hD : D.Lawful) {parameters tys : List Ty} {values : List Value}
    (h : List.Forall₂ D.Accepts parameters tys) (hv : List.Forall₂ D.conforms tys values) :
    List.Forall₂ D.conforms parameters values := by
  induction h generalizing values with
  | nil =>
    cases hv
    exact .nil
  | cons hfirst _ ih =>
    cases hv with
    | cons hvalue hothers => exact .cons (hD.accepts hfirst hvalue) (ih hothers)

/-! ## Scopes -/

variable {Δ : Functions} {t : Scopes Ty Callable} {id : Nat} {m : Machine}

theorem Provides.extend (h : D.Provides Δ t) (hid : id ≠ Scopes.root) (added : Frame) :
    D.Provides Δ (t.extend id added) := by
  intro n k f hf
  obtain ⟨callable, hcallable, himplements⟩ := h n k f hf
  refine ⟨callable, by rwa [Scopes.functionIn?_extend], ?_⟩
  rwa [Scopes.bindings_extend_ne (Ne.symm hid)]

theorem Provides.child (h : D.Provides Δ t) (ht : t.Rooted) (p : Nat) :
    D.Provides Δ (t.child p) := by
  intro n k f hf
  obtain ⟨callable, hcallable, himplements⟩ := h n k f hf
  exact ⟨callable, by rwa [ht.functionIn?_child_root], by rwa [ht.bindings_child_root]⟩

/-- What is seen from a place where variables are declared. -/
theorem view_extend (ht : t.Rooted) (hid : id < t.depth) (added : Frame) :
    (t.extend id added).view id = Context.declare added (t.view id) := by
  obtain ⟨scope, hscope⟩ := Scopes.get?_eq_some_of_lt hid
  rw [ht.view_extend hid, ht.view_eq hscope, Scopes.bindings_eq hscope]
  rfl

namespace Stands

/-- A machine goes into a new scope. -/
theorem enter (h : D.Stands Δ t id m) {p : Nat} (hp : p < t.depth) :
    D.Stands Δ (t.child p) t.fresh (m.enter p) := by
  refine ⟨?_, ?_, h.rooted.child hp, h.related.child p, h.provides.child h.rooted p⟩
  · change m.scopes.fresh = t.fresh
    exact h.related.depth_eq.symm
  · rw [Scopes.depth_child]
    exact Nat.lt_succ_self _

/-- Back from a scope the machine stands where it stood. -/
theorem leave (h : D.Stands Δ t id m) {p : Nat} {added : Frame} {last : Machine}
    (hlast : D.Stands Δ ((t.child p).extend t.fresh added) t.fresh last) :
    D.Stands Δ t id (last.leave m.scopes.fresh m.scope) := by
  have hfresh : m.scopes.fresh = t.fresh := h.related.depth_eq.symm
  refine ⟨h.scope, h.live, h.rooted, ?_, h.provides⟩
  have hrelated : Scopes.Related D.conforms (((t.child p).extend t.fresh added).release t.fresh)
      (last.scopes.release t.fresh) := hlast.related.release h.rooted.live
  rw [Scopes.release_extend_child h.rooted.live] at hrelated
  rw [hfresh]
  exact hrelated

/-- What is done in a scope of its own is done to the outside too. -/
theorem inScope {α : Type} {good : α → Prop} {failed : Diagnostic → Machine → Prop}
    (h : D.Stands Δ t id m) {p : Nat} {inner : Run α}
    (hinner : inner.Ensures (m.enter p)
      (fun result last =>
        (∃ added, D.Stands Δ ((t.child p).extend t.fresh added) t.fresh last) ∧ good result)
      (fun d last => failed d (last.leave m.scopes.fresh m.scope))) :
    (Run.inScope p inner).Ensures m (fun result last => D.Stands Δ t id last ∧ good result)
      failed := by
  refine Run.ensures_inScope (hinner.mono ?_ fun _ _ h => h)
  rintro result last ⟨⟨added, hlast⟩, hgood⟩
  exact ⟨h.leave hlast, hgood⟩

/-- A name finds a value that conforms to the type that is known of it. -/
theorem lookup (h : D.Stands Δ t id m) {n : String} {ty : Ty}
    (hty : Context.tyOf? (t.view id) n = some ty) (position : Position) :
    ∃ value, m.lookupVariable n position = .ok value ∧ D.conforms ty value := by
  have hrel := h.related.nearestVariable? id n
  have ht : t.nearestVariable? id n = some ty := (Scopes.nearestVariable?_eq t id n).trans hty
  rw [ht] at hrel
  rw [Machine.lookupVariable, h.scope, Scopes.lookupVariable]
  cases hm : m.scopes.nearestVariable? id n with
  | none =>
    rw [hm] at hrel
    cases hrel
  | some value =>
    rw [hm] at hrel
    cases hrel with
    | some hvalue => exact ⟨value, rfl, hvalue⟩

/-- A variable takes every value that conforms to its type. -/
theorem assign (h : D.Stands Δ t id m) {n : String} {ty : Ty} {value : Value}
    (hty : Context.tyOf? (t.view id) n = some ty) (hvalue : D.conforms ty value)
    (position : Position) :
    ∃ last, m.assign n value position = .ok last ∧ D.Stands Δ t id last := by
  have ht : t.nearestVariable? id n = some ty := (Scopes.nearestVariable?_eq t id n).trans hty
  obtain ⟨scopes, hassign, hrelated⟩ := h.related.assign ht hvalue position
  obtain ⟨s, scope, printer⟩ := m
  obtain rfl : scope = id := h.scope
  refine ⟨⟨scopes, scope, printer⟩, ?_, ⟨rfl, h.live, h.rooted, hrelated, h.provides⟩⟩
  rw [Machine.assign, Machine.changeScopes, hassign]

/-- A variable that is new in its scope is declared with a value that conforms to its type. -/
theorem declare (h : D.Stands Δ t id m) {n : String} {ty : Ty} {value : Value}
    (hfresh : Context.Fresh n (t.view id)) (hvalue : D.conforms ty value)
    (hprovides : D.Provides Δ (t.extend id [(n, ty)])) (position : Position) :
    ∃ last, m.declare n value position = .ok last ∧ D.Stands Δ (t.extend id [(n, ty)]) id last := by
  obtain ⟨frame, hframe⟩ := Scopes.get?_eq_some_of_lt h.live
  have hnone : t.variableIn? n id = none := by
    rw [h.rooted.view_eq hframe] at hfresh
    rw [Scopes.variableIn?_eq, Scopes.bindings_eq hframe]
    exact hfresh
  have hin : m.scopes.variableIn? n id = none := by
    have hsome := isSome_eq_of_rel (h.related.variableIn? n id)
    rw [hnone] at hsome
    exact Option.not_isSome_iff_eq_none.mp (by rw [← hsome]; exact Bool.false_ne_true)
  obtain ⟨s, scope, printer⟩ := m
  obtain rfl : scope = id := h.scope
  refine ⟨⟨s.extend scope [(n, value)], scope, printer⟩, ?_, ⟨rfl, ?_, h.rooted.extend _ _,
    h.related.extend scope (.cons ⟨rfl, hvalue⟩ .nil), hprovides⟩⟩
  · rw [Machine.declare, Machine.changeScopes, Scopes.defineVariable_eq hin]
  · rw [Scopes.depth_extend]
    exact h.live

end Stands

end Discipline

end TeachLang
