import TeachLang.Proofs.Rechecking
import TeachLang.Proofs.Images

/-!
# Running does not look at slots

A machine holds the methods of the program that it runs, with whatever is in their slots. It is
**cleared** by emptying these slots, and so is the end of a run. Running a program and clearing what
comes of it is the same as running the cleared program on the cleared machine, which
`Run.Clears` says of all runs. So the slots of a program can be empty, filled in part or filled
with anything: it prints the same, comes to the same end and leaves the same variables behind.
-/

namespace TeachLang

variable {α : Type}

/-! ## Cleared machines -/

/-- What can be called, with empty slots. -/
def Callable.cleared : Callable → Callable
  | .print => .print
  | .native answer => .native answer
  | .method m scope => .method m.cleared scope

/-- A machine with empty slots in its methods. -/
def Machine.cleared (m : Machine) : Machine :=
  ⟨m.scopes.mapFunctions Callable.cleared, m.scope, m.printer⟩

/-- The end of a run with empty slots in the methods of the machine. -/
def Outcome.cleared : Outcome α → Outcome α
  | .done result m => .done result m.cleared
  | .failed d m => .failed d m.cleared
  | .exhausted => .exhausted

/-! ## Runs -/

namespace Run

/-- A run on a cleared machine comes to the same end as another on the machine itself, up to
slots. -/
def Clears (r cleared : Run α) : Prop := ∀ m, cleared m.cleared = (r m).cleared

/-- The image of a run under clearing is the cleared run. -/
theorem Maps.clears {r r' : Run α} (h : Maps Callable.cleared id r r') : r.Clears r' := by
  intro m
  have hm : Outcome.Maps Callable.cleared id (r m) (r' m.cleared) := h m
  generalize r m = a at hm ⊢
  generalize r' m.cleared = b at hm ⊢
  cases hm with
  | done result last => rfl
  | failed last hd => exact congrArg (Outcome.failed · last.cleared) hd
  | exhausted => rfl

end Run

/-! ## Expressions -/

variable {host : Host} {caller caller' : Caller} {fuel : Nat}

namespace Expr

open Run

/-- An expression is a place by its form. -/
theorem place?_cleared : ∀ e : Expr, e.cleared.place? = e.place?
  | name .. => rfl
  | member receiver .. => by rw [cleared, place?, place?, place?_cleared receiver]
  | literal .. | group .. | binary .. | call .. | methodCall .. => rfl

mutual

/-- An expression comes to what the cleared one comes to. Slots are never looked at, so every form
does with its parts what it did before. -/
theorem evaluate_clears (h : Caller.Maps Callable.cleared id caller caller') : ∀ e : Expr,
    Maps Callable.cleared id (e.evaluate host caller) (e.cleared.evaluate host caller')
  | literal .. => maps_pure _
  | group inner .. => evaluate_clears h inner
  | binary operator left right _ _ =>
    (evaluate_clears h left).bind fun value =>
      evaluateBinary_maps .refl operator value (evaluate_clears h right)
  | name n .. => lookupVariable_maps .refl n
  | member receiver .. => (evaluate_clears h receiver).bind fun _ => maps_ofExcept rfl
  | call _ arguments .. => (evaluateAll_clears h arguments).bind fun _ => h _ _ .refl
  | methodCall receiver _ arguments .. =>
    (evaluate_clears h receiver).bind fun _ =>
      (evaluateAll_clears h arguments).bind fun _ => maps_ofExcept rfl

/-- Arguments are evaluated alike. -/
theorem evaluateAll_clears (h : Caller.Maps Callable.cleared id caller caller') :
    ∀ es : List Expr, Maps Callable.cleared id (evaluateAll host caller es)
      (evaluateAll host caller' (allCleared es))
  | [] => maps_pure _
  | e :: es =>
    (evaluate_clears h e).bind fun _ => (evaluateAll_clears h es).bind fun _ => maps_pure _

end

section Caller

variable (h : Caller.Maps Callable.cleared id caller caller')

include h

theorem evaluateTruth_clears (e : Expr) :
    Maps Callable.cleared id (e.evaluateTruth host caller)
      (e.cleared.evaluateTruth host caller') := by
  unfold evaluateTruth
  rw [span_cleared]
  exact (e.evaluate_clears h).bind fun _ => maps_ofExcept rfl

theorem evaluateItems_clears (e : Expr) :
    Maps Callable.cleared id (e.evaluateItems host caller)
      (e.cleared.evaluateItems host caller') := by
  unfold evaluateItems
  rw [span_cleared]
  refine (e.evaluate_clears h).bind fun value => ?_
  split
  · exact maps_pure _
  · exact maps_fail .refl _

/-- The value goes to the same place. -/
theorem assign_clears (target e : Expr) :
    Maps Callable.cleared id (target.assign host caller e)
      (target.cleared.assign host caller' e.cleared) := by
  cases target with
  | name n _ span =>
    exact (e.evaluate_clears h).bind fun value => Run.assign_maps .refl n value
  | member receiver =>
    rw [cleared, assign, assign, place?_cleared]
    refine (e.evaluate_clears h).bind fun value => ?_
    split
    · next place _ => exact Place.change_maps (.refl place) fun _ => rfl
    · exact (receiver.evaluate_clears h).bind fun _ =>
        (maps_ofExcept rfl).bind fun _ => maps_pure _
  | literal | group | binary | call | methodCall => exact maps_fail .refl _

theorem value_clears (value : Option Expr) :
    Maps Callable.cleared id (value.elim (Run.pure .nil) (Expr.evaluate host caller))
      ((value.map Expr.cleared).elim (Run.pure .nil) (Expr.evaluate host caller')) := by
  cases value with
  | none => exact maps_pure _
  | some e => exact e.evaluate_clears h

end Caller

end Expr

/-! ## Statements -/

namespace Stmt

open Run

mutual

/-- A statement does what the cleared one does. -/
theorem execute_clears (h : Caller.Maps Callable.cleared id caller caller') : ∀ stmt : Stmt,
    Maps Callable.cleared id (stmt.execute host caller fuel)
      (stmt.cleared.execute host caller' fuel)
  | expression e _ => (e.evaluate_clears h).bind fun _ => maps_pure _
  | declaration n _ value _ _ =>
    (Expr.value_clears h value).bind fun found =>
      (declare_maps .refl n found).bind fun _ => maps_pure _
  | assignment target value _ => (target.assign_clears h value).bind fun _ => maps_pure _
  | conditional condition thenBody elseBody _ => by
    refine (condition.evaluateTruth_clears h).bind fun b => ?_
    split
    · exact (executeAll_clears h thenBody).inBlock
    · exact (executeAll_clears h elseBody).inBlock
  | forEach n items body _ =>
    (items.evaluateItems_clears h).bind fun values =>
      Maps.forItems (fun item => Maps.inBlock
        ((declare_maps .refl n item).bind fun _ => executeAll_clears h body)) values
  | whileLoop condition body _ =>
    (condition.evaluateTruth_clears h).rounds (executeAll_clears h body).inBlock fuel
  | returns value _ => (value.evaluate_clears h).bind fun _ => maps_pure _

theorem executeAll_clears (h : Caller.Maps Callable.cleared id caller caller') :
    ∀ stmts : List Stmt, Maps Callable.cleared id (executeAll host caller fuel stmts)
      (executeAll host caller' fuel (allCleared stmts))
  | [] => maps_pure _
  | stmt :: stmts => (execute_clears h stmt).unlessReturned (executeAll_clears h stmts)

end

end Stmt

/-! ## Programs -/

namespace Run

/-- A call of a method on the machine runs its cleared body on the other. The induction is on the
fuel. -/
theorem call_clears (host : Host) :
    ∀ fuel, Caller.Maps Callable.cleared id (call host fuel) (call host fuel)
  | 0, _, _, _, _, _ => maps_exhausted
  | fuel + 1, n, arguments, _, _, h => by
    refine maps_look_bind (Machine.lookupFunction_mapCallables h n arguments.length)
      fun callable => ?_
    cases callable with
    | print => exact print_maps _
    | native answer => exact maps_ofExcept rfl
    | method m scope =>
      refine (Maps.inScope ?_ scope).bind fun _ => maps_pure _
      exact (declareParameters_maps .refl m.parameters arguments).bind fun _ =>
        Stmt.executeAll_clears (call_clears host fuel) m.body

theorem defineFields_clears (host : Host) (fuel : Nat) : ∀ fields : List Field,
    Maps Callable.cleared id (defineFields host fuel fields)
      (defineFields host fuel (fields.map Field.cleared))
  | [] => maps_pure _
  | field :: fields =>
    (Expr.value_clears (call_clears host fuel) field.value).bind fun value =>
      (declareInRoot_maps .refl field.name value).bind fun _ =>
        defineFields_clears host fuel fields

/-- Methods that are defined with their slots are, cleared, those that are defined without. -/
theorem defineMethods_clears : ∀ methods : List Method,
    Maps Callable.cleared id (defineMethods methods) (defineMethods (methods.map Method.cleared))
  | [] => maps_pure _
  | method :: methods =>
    (declareFunction_maps .refl method.name method.parameters.length
      (.method method Scopes.root)).bind fun _ => defineMethods_clears methods

/-- Running a program and clearing what comes of it is running the cleared program. -/
theorem program_clears (host : Host) (fuel : Nat) (p : Program) :
    (program host fuel p).Clears (program host fuel p.cleared) :=
  Maps.clears ((defineFields_clears host fuel p.fields).bind fun _ =>
    (defineMethods_clears p.methods).bind fun _ => call_clears host fuel _ _ .refl)

end Run

namespace Program

/-- Slots are notes on a program and no part of it. Checking changes nothing else, on any checker
and whatever it comes to. What slots held before matters neither to checking, which leaves the
checker alike, comes to the same verdict and, if that is good, to the same tree, nor to running,
which comes to the same end, and only the methods on the machine still differ in their slots. -/
theorem slots_only_annotate :
    (∀ (c : Checker) (p : Program), (p.check c).2.tree.cleared = p.cleared) ∧
    (∀ (c : Checker) (p q : Program), p.cleared = q.cleared →
      (p.check c).1 = (q.check c).1 ∧ (p.check c).2.verdict = (q.check c).2.verdict ∧
      ((p.check c).2.verdict = .ok () → (p.check c).2.tree = (q.check c).2.tree)) ∧
    (∀ (c : Checker) (p : Program), (p.check c).2.verdict = .ok () →
      (p.check c).2.tree.check c = p.check c) ∧
    ∀ (host : Host) (fuel : Nat) (m : Machine) (p q : Program), p.cleared = q.cleared →
      (Run.program host fuel p m).cleared = (Run.program host fuel q m).cleared := by
  refine ⟨fun c p => p.cleared_check c, fun c p q h => ?_, fun c p => check_check,
    fun host fuel m p q h => ?_⟩
  · obtain ⟨hchecker, hresult⟩ := check_of_cleared h c
    exact ⟨hchecker, hresult.verdict, hresult.tree⟩
  · rw [← Run.program_clears host fuel p m, ← Run.program_clears host fuel q m, h]

/-- A field and an entry method that returns their sum, with the given slots. -/
def adding (ty : Option Ty) (binding : Option Variable) (callee : Option Signature) : Program :=
  ⟨[⟨"x", "Integer", some (.literal (.integer 1) ty default), binding, default⟩],
    [⟨"main", [], some "Integer",
      [.returns (.binary .plus (.name "x" binding default) (.literal (.integer 2) ty default) ty
        default) default], callee, default⟩], default⟩

theorem misleading_slots_ignored :
    let unread := adding none none none
    let misled := adding (some .string) (some (.plain "y" .nil)) (some .print)
    unread.cleared = misled.cleared ∧
      (misled.check .initial).2.verdict = .ok () ∧
      (misled.check .initial).2.tree = (unread.check .initial).2.tree ∧
      (misled.check .initial).2.tree.check .initial = misled.check .initial ∧
      (Run.program (fun _ value _ => .ok value) 1 misled .initial).cleared =
        (Run.program (fun _ value _ => .ok value) 1 unread .initial).cleared := by
  intro unread misled
  obtain ⟨-, hcheck, hagain, hrun⟩ := slots_only_annotate
  have hsame : misled.cleared = unread.cleared := rfl
  have haccepted : (misled.check .initial).2.verdict = .ok () := rfl
  exact ⟨hsame.symm, haccepted, (hcheck _ _ _ hsame).2.2 haccepted, hagain _ _ haccepted,
    hrun _ _ _ _ _ hsame⟩

end Program

end TeachLang
