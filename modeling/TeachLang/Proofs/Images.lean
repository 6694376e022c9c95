import Mathlib.Data.List.Forall2
import TeachLang.Proofs.Scopes
import TeachLang.Run.Program

/-!
# Images of runs

What can be called may be replaced on a machine by something that does the same, such as a method by
the method with other notes on it. Replacing it before a run or behind it comes to the same, if the
run is that of the replaced program, which `Run.Maps` says. The two runs may also blame other places
for a failure, as long as a function `g` makes the diagnostics the same. There is one rule for each
way in which runs are put together.
-/

namespace TeachLang

variable {V F G α β : Type}

/-! ## Scopes with other functions -/

/-- A scope with each of its functions replaced. -/
def Scope.mapFunctions (f : F → G) (scope : Scope V F) : Scope V G :=
  ⟨scope.parent, scope.variableTable, scope.functionTable.map f⟩

namespace Scopes

/-- Scopes with each of their functions replaced. -/
def mapFunctions (f : F → G) (s : Scopes V F) : Scopes V G := ⟨s.scopes.map (Scope.mapFunctions f)⟩

variable (f : F → G) (s : Scopes V F)

theorem get?_mapFunctions (id : Nat) :
    (s.mapFunctions f).get? id = (s.get? id).map (Scope.mapFunctions f) :=
  Array.getElem?_map

@[simp] theorem depth_mapFunctions : (s.mapFunctions f).depth = s.depth := Array.size_map

/-- Scopes lie around each other as before: what encloses a scope has nothing to do with its
functions. -/
theorem chain_mapFunctions (id : Nat) : (s.mapFunctions f).chain id = s.chain id := by
  have houtward : ∀ limit id, (s.mapFunctions f).outward limit id = s.outward limit id := by
    intro limit
    induction limit with
    | zero => intro id; rfl
    | succ limit ih =>
      intro id
      rw [outward, outward, get?_mapFunctions]
      cases s.get? id with
      | none => rfl
      | some scope =>
        cases hparent : scope.parent with
        | none => simp [Scope.mapFunctions, hparent]
        | some p => simp [Scope.mapFunctions, hparent, ih p]
  rw [chain, chain, depth_mapFunctions, houtward]

/-- Variables stay where they are. -/
@[simp] theorem variableIn?_mapFunctions (name : String) (id : Nat) :
    (s.mapFunctions f).variableIn? name id = s.variableIn? name id := by
  rw [variableIn?, variableIn?, get?_mapFunctions]
  cases s.get? id <;> rfl

theorem lookup_map {K : Type} [BEq K] (f : F → G) (entries : List (K × F)) (key : K) :
    (entries.map fun entry => (entry.1, f entry.2)).lookup key = (entries.lookup key).map f := by
  induction entries with
  | nil => rfl
  | cons entry entries ih =>
    rw [List.map_cons, List.lookup_cons, List.lookup_cons]
    split
    · rfl
    · exact ih

/-- Under the key of a function there is the one that replaces it. -/
@[simp] theorem functionIn?_mapFunctions (name : String) (arity id : Nat) :
    (s.mapFunctions f).functionIn? name arity id = (s.functionIn? name arity id).map f := by
  rw [functionIn?, functionIn?, get?_mapFunctions]
  cases s.get? id with
  | none => rfl
  | some scope =>
    change (scope.functionTable.map f).get? (name, arity) =
      (scope.functionTable.get? (name, arity)).map f
    rw [Table.get?_eq, Table.get?_eq, Table.toList_map, lookup_map]

/-- A name means the same variable. -/
theorem nearestVariable?_mapFunctions (id : Nat) (name : String) :
    (s.mapFunctions f).nearestVariable? id name = s.nearestVariable? id name := by
  rw [nearestVariable?, nearestVariable?, chain_mapFunctions,
    funext (variableIn?_mapFunctions f s name)]

/-- A variable that is assigned to is in the same scope. -/
theorem home?_mapFunctions (id : Nat) (name : String) :
    (s.mapFunctions f).home? id name = s.home? id name := by
  rw [home?, home?, chain_mapFunctions]
  simp only [variableIn?_mapFunctions]

/-- A call finds what replaces the function that it found. -/
theorem nearestFunction?_mapFunctions (id : Nat) (name : String) (arity : Nat) :
    (s.mapFunctions f).nearestFunction? id name arity =
      (s.nearestFunction? id name arity).map f := by
  rw [nearestFunction?, nearestFunction?, chain_mapFunctions, List.map_findSome?,
    funext (functionIn?_mapFunctions f s name arity)]
  rfl

/-- A new scope has no functions to replace. -/
theorem mapFunctions_child (parent : Nat) :
    (s.child parent).mapFunctions f = (s.mapFunctions f).child parent := by
  have hempty : (Scope.empty (some parent) : Scope V F).mapFunctions f = .empty (some parent) :=
    Scope.ext_lists rfl rfl (Table.toList_map ..)
  simp [mapFunctions, child, hempty]

theorem mapFunctions_release (id : Nat) :
    (s.release id).mapFunctions f = (s.mapFunctions f).release id := by
  simp [mapFunctions, release]

/-- A change of one scope can be made before its functions are replaced or behind it. -/
theorem mapFunctions_modify (id : Nat) {change : Scope V F → Scope V F}
    {change' : Scope V G → Scope V G}
    (h : ∀ scope, (change scope).mapFunctions f = change' (scope.mapFunctions f)) :
    (⟨s.scopes.modify id change⟩ : Scopes V F).mapFunctions f =
      ⟨(s.mapFunctions f).scopes.modify id change'⟩ := by
  refine ext_get? fun place => ?_
  rw [get?_mapFunctions]
  change ((s.scopes.modify id change)[place]?).map _ =
    ((s.mapFunctions f).scopes.modify id change')[place]?
  have hplace : (s.mapFunctions f).scopes[place]? = s.scopes[place]?.map (Scope.mapFunctions f) :=
    get?_mapFunctions f s place
  rw [Array.getElem?_modify, Array.getElem?_modify, hplace]
  split
  · rw [Option.map_map, Option.map_map]
    exact congrArg (Option.map · _) (funext h)
  · rfl

variable {id : Nat} {name : String} {position : Position}

theorem lookupVariable_mapFunctions :
    (s.mapFunctions f).lookupVariable id name position = s.lookupVariable id name position := by
  rw [lookupVariable, lookupVariable, nearestVariable?_mapFunctions]

theorem lookupFunction_mapFunctions {arity : Nat} :
    (s.mapFunctions f).lookupFunction id name arity position =
      (s.lookupFunction id name arity position).map f := by
  rw [lookupFunction, lookupFunction, nearestFunction?_mapFunctions]
  cases s.nearestFunction? id name arity <;> rfl

/-- To assign behind the replacement is to replace behind the assignment. -/
theorem assign_mapFunctions {value : V} :
    (s.mapFunctions f).assign id name value position =
      (s.assign id name value position).map (mapFunctions f) := by
  rw [assign, assign, home?_mapFunctions]
  cases s.home? id name with
  | none => rfl
  | some home => exact congrArg _ (mapFunctions_modify f s home fun _ => rfl).symm

/-- To declare a variable behind the replacement is to replace behind the declaration. -/
theorem defineVariable_mapFunctions {value : V} :
    (s.mapFunctions f).defineVariable id name value position =
      (s.defineVariable id name value position).map (mapFunctions f) := by
  rw [defineVariable, defineVariable, variableIn?_mapFunctions]
  cases s.variableIn? name id with
  | none => exact congrArg _ (mapFunctions_modify f s id fun _ => rfl).symm
  | some held => rfl

/-- To declare what replaces a function is to declare the function and replace it then. -/
theorem defineFunction_mapFunctions {arity : Nat} {function : F} :
    (s.mapFunctions f).defineFunction id name arity (f function) position =
      (s.defineFunction id name arity function position).map (mapFunctions f) := by
  rw [defineFunction, defineFunction, functionIn?_mapFunctions]
  cases s.functionIn? name arity id with
  | none =>
    refine congrArg _ (mapFunctions_modify f s id fun scope => ?_).symm
    simp [Scope.mapFunctions, Scope.addFunction]
  | some held => rfl

end Scopes

/-! ## Images of machines -/

/-- A machine with everything replaced that can be called. -/
def Machine.mapCallables (f : Callable → Callable) (m : Machine) : Machine :=
  ⟨m.scopes.mapFunctions f, m.scope, m.printer⟩

/-- Two ends of runs that are the same but for what can be called on the machine, which is replaced
in the second, and for a diagnostic that `g` makes the same. -/
inductive Outcome.Maps (f : Callable → Callable) (g : Diagnostic → Diagnostic) :
    Outcome α → Outcome α → Prop
  /-- with one result -/
  | done (result m) : Maps f g (.done result m) (.done result (m.mapCallables f))
  /-- with two such diagnostics -/
  | failed {d d'} (m) : g d' = g d → Maps f g (.failed d m) (.failed d' (m.mapCallables f))
  /-- both for lack of fuel -/
  | exhausted : Maps f g .exhausted .exhausted

/-- Two places that make no difference to a diagnostic once it is replaced. -/
def SamePlace (g : Diagnostic → Diagnostic) (p q : Position) : Prop :=
  ∀ fault, g ⟨fault, p⟩ = g ⟨fault, q⟩

theorem SamePlace.refl {g : Diagnostic → Diagnostic} {p : Position} : SamePlace g p p :=
  fun _ => rfl

variable {f : Callable → Callable} {g : Diagnostic → Diagnostic} {p q : Position}

namespace Machine

/-- A change of scopes that can be made on either side of the replacement is one of machines, if its
faults are the same for `g`. -/
theorem changeScopes_mapCallables
    {change change' : Scopes Value Callable → Nat → Except Diagnostic (Scopes Value Callable)}
    (h : ∀ s scope, (change' (s.mapFunctions f) scope).mapError g =
      ((change s scope).map (Scopes.mapFunctions f)).mapError g) (m : Machine) :
    ((m.mapCallables f).changeScopes change').mapError g =
      ((m.changeScopes change).map (mapCallables f)).mapError g := by
  obtain ⟨scopes, scope, printer⟩ := m
  have hchange := h scopes scope
  simp only [changeScopes, mapCallables]
  cases hnew : change scopes scope <;> cases hnew' : change' (scopes.mapFunctions f) scope <;>
    rw [hnew, hnew'] at hchange
  · exact congrArg Except.error (Except.error.inj hchange)
  · cases hchange
  · cases hchange
  · have hscopes := Except.ok.inj hchange
    subst hscopes
    rfl

variable (h : SamePlace g p q)

include h

/-- A variable has the same value, and is missed at places that are the same for `g`. -/
theorem lookupVariable_mapCallables (n : String) (m : Machine) :
    ((m.mapCallables f).lookupVariable n p).mapError g = (m.lookupVariable n q).mapError g := by
  rw [lookupVariable, lookupVariable, mapCallables, Scopes.lookupVariable_mapFunctions,
    Scopes.lookupVariable, Scopes.lookupVariable]
  cases m.scopes.nearestVariable? m.scope n with
  | some value => rfl
  | none => exact congrArg Except.error (h _)

/-- A call finds the replacement, or nothing on both sides. -/
theorem lookupFunction_mapCallables (n : String) (arity : Nat) (m : Machine) :
    ((m.mapCallables f).lookupFunction n arity p).mapError g =
      ((m.lookupFunction n arity q).map f).mapError g := by
  rw [lookupFunction, lookupFunction, mapCallables, Scopes.lookupFunction_mapFunctions,
    Scopes.lookupFunction, Scopes.lookupFunction]
  cases m.scopes.nearestFunction? m.scope n arity with
  | some callable => rfl
  | none => exact congrArg Except.error (h _)

/-- A machine and its image stay so when both assign. -/
theorem assign_mapCallables (n : String) (value : Value) (m : Machine) :
    ((m.mapCallables f).assign n value p).mapError g =
      ((m.assign n value q).map (mapCallables f)).mapError g := by
  refine changeScopes_mapCallables (fun s scope => ?_) m
  rw [Scopes.assign_mapFunctions, Scopes.assign, Scopes.assign]
  cases s.home? scope n with
  | some home => rfl
  | none => exact congrArg Except.error (h _)

/-- The same of scopes that get a variable, which may be there already. -/
theorem defineVariable_mapCallables (n : String) (value : Value) (s : Scopes Value Callable)
    (id : Nat) : ((s.mapFunctions f).defineVariable id n value p).mapError g =
      ((s.defineVariable id n value q).map (Scopes.mapFunctions f)).mapError g := by
  rw [Scopes.defineVariable_mapFunctions, Scopes.defineVariable, Scopes.defineVariable]
  cases s.variableIn? n id with
  | some held => exact congrArg Except.error (h _)
  | none => rfl

/-- The same of scopes that get a function, replaced in the second. -/
theorem defineFunction_mapCallables (n : String) (arity : Nat) (callable : Callable)
    (s : Scopes Value Callable) (id : Nat) :
    ((s.mapFunctions f).defineFunction id n arity (f callable) p).mapError g =
      ((s.defineFunction id n arity callable q).map (Scopes.mapFunctions f)).mapError g := by
  rw [Scopes.defineFunction_mapFunctions, Scopes.defineFunction, Scopes.defineFunction]
  cases s.functionIn? n arity id with
  | some held => exact congrArg Except.error (h _)
  | none => rfl

end Machine

namespace Machine

/-- A new scope is entered on both sides of the replacement. -/
theorem mapCallables_enter (parent : Nat) (m : Machine) :
    (m.enter parent).mapCallables f = (m.mapCallables f).enter parent := by
  have hfresh : (m.scopes.mapFunctions f).fresh = m.scopes.fresh := m.scopes.depth_mapFunctions _
  simp only [enter, mapCallables, Scopes.mapFunctions_child, hfresh]

/-- It is left on both sides, too. -/
theorem mapCallables_leave (fresh back : Nat) (m : Machine) :
    (m.leave fresh back).mapCallables f = (m.mapCallables f).leave fresh back := by
  simp only [leave, mapCallables, Scopes.mapFunctions_release]

end Machine

/-! ## Images of runs -/

namespace Run

/-- To run the second on the image of a machine comes to the image of what the first comes to on the
machine. -/
def Maps (f : Callable → Callable) (g : Diagnostic → Diagnostic) (r image : Run α) : Prop :=
  ∀ m : Machine, Outcome.Maps f g (r m) (image (m.mapCallables f))

theorem maps_pure (result : α) : Maps f g (Run.pure result) (Run.pure result) := .done result

theorem maps_exhausted : Maps f g (exhausted : Run α) exhausted := fun _ => .exhausted

/-- Two failures for one fault are told apart by their places only. -/
theorem maps_fail (h : SamePlace g p q) (fault : Fault) :
    Maps f g (fail fault q : Run α) (fail fault p) := fun m => .failed m (h fault)

theorem maps_ofExcept {result result' : Except Diagnostic α}
    (h : result'.mapError g = result.mapError g) : Maps f g (ofExcept result) (ofExcept result') :=
  fun m => by
    cases result with
    | ok x =>
      cases result' with
      | ok x' =>
        obtain rfl : x' = x := Except.ok.inj h
        exact .done x' m
      | error d' => cases h
    | error d =>
      cases result' with
      | ok x' => cases h
      | error d' => exact .failed m (Except.error.inj h)

/-- What is read off the machine is the same on its image. -/
theorem maps_look {look look' : Machine → Except Diagnostic α}
    (h : ∀ m : Machine, (look' (m.mapCallables f)).mapError g = (look m).mapError g) :
    Maps f g (Run.look look) (Run.look look') := fun m => maps_ofExcept (h m) m

/-- A change of the machine is one of its image. -/
theorem maps_change {change change' : Machine → Except Diagnostic Machine}
    (h : ∀ m : Machine, (change' (m.mapCallables f)).mapError g =
      ((change m).map (Machine.mapCallables f)).mapError g) :
    Maps f g (Run.change change) (Run.change change') := fun m => by
  have hm := h m
  unfold Run.change
  generalize change m = a at hm ⊢
  generalize change' (m.mapCallables f) = b at hm ⊢
  cases a with
  | ok next =>
    cases b with
    | ok next' =>
      obtain rfl : next' = next.mapCallables f := Except.ok.inj hm
      exact .done () next
    | error d' => cases hm
  | error d =>
    cases b with
    | ok next' => cases hm
    | error d' => exact .failed m (Except.error.inj hm)

/-- What is done next is an image for every result of what is done first. -/
theorem Maps.bind {first first' : Run α} {next next' : α → Run β} (h : Maps f g first first')
    (hnext : ∀ result, Maps f g (next result) (next' result)) :
    Maps f g (first >>= next) (first' >>= next') := fun m => by
  have hfirst := h m
  change Outcome.Maps f g (Run.bind first next m) (Run.bind first' next' _)
  unfold Run.bind
  generalize first m = a at hfirst ⊢
  generalize first' (m.mapCallables f) = b at hfirst ⊢
  cases hfirst with
  | done result mid => exact hnext result mid
  | failed mid hd => exact .failed mid hd
  | exhausted => exact .exhausted

/-- What is looked up may itself be replaced. -/
theorem maps_look_bind {look look' : Machine → Except Diagnostic α} {image : α → α}
    {next next' : α → Run β}
    (h : ∀ m : Machine, (look' (m.mapCallables f)).mapError g = ((look m).map image).mapError g)
    (hnext : ∀ found, Maps f g (next found) (next' (image found))) :
    Maps f g (Run.look look >>= next) (Run.look look' >>= next') := fun m => by
  have hm := h m
  change Outcome.Maps f g (Run.bind (Run.look look) next m) (Run.bind (Run.look look') next' _)
  unfold Run.bind Run.look
  generalize look m = a at hm ⊢
  generalize look' (m.mapCallables f) = b at hm ⊢
  cases a with
  | ok found =>
    cases b with
    | ok found' =>
      obtain rfl : found' = image found := Except.ok.inj hm
      exact hnext found m
    | error d' => cases hm
  | error d =>
    cases b with
    | ok found' => cases hm
    | error d' => exact .failed m (Except.error.inj hm)

/-- A scope of its own is entered before and left behind on both sides. -/
theorem Maps.inScope {inner inner' : Run α} (h : Maps f g inner inner') (parent : Nat) :
    Maps f g (inScope parent inner) (inScope parent inner') := fun m => by
  have hinner := h (m.enter parent)
  have hfresh : (m.mapCallables f).scopes.fresh = m.scopes.fresh := m.scopes.depth_mapFunctions _
  rw [Machine.mapCallables_enter] at hinner
  unfold Run.inScope
  rw [hfresh]
  generalize inner (m.enter parent) = a at hinner ⊢
  generalize inner' ((m.mapCallables f).enter parent) = b at hinner ⊢
  cases hinner with
  | done result last =>
    simp only
    rw [← Machine.mapCallables_leave]
    exact .done result _
  | failed last hd =>
    simp only
    rw [← Machine.mapCallables_leave]
    exact .failed _ hd
  | exhausted => exact .exhausted

theorem Maps.inBlock {inner inner' : Run α} (h : Maps f g inner inner') :
    Maps f g (inBlock inner) (inBlock inner') := fun m => h.inScope m.scope m

/-- Either both go on or both have returned. -/
theorem Maps.unlessReturned {first first' next next' : Run Flow} (h : Maps f g first first')
    (hnext : Maps f g next next') :
    Maps f g (first.unlessReturned next) (first'.unlessReturned next') := fun m => by
  have hfirst := h m
  unfold Run.unlessReturned
  generalize first m = a at hfirst ⊢
  generalize first' (m.mapCallables f) = b at hfirst ⊢
  cases hfirst with
  | done flow mid =>
    cases flow with
    | next => exact hnext mid
    | returned value => exact .done _ mid
  | failed mid hd => exact .failed mid hd
  | exhausted => exact .exhausted

/-- A loop goes round as often as its image, by induction on the fuel. -/
theorem Maps.rounds {condition condition' : Run Bool} {round round' : Run Flow}
    (hcondition : Maps f g condition condition') (hround : Maps f g round round') :
    ∀ left, Maps f g (rounds condition round left) (rounds condition' round' left)
  | 0 => maps_exhausted
  | left + 1 => fun m => by
    have hm := hcondition m
    unfold Run.rounds
    generalize condition m = a at hm ⊢
    generalize condition' (m.mapCallables f) = b at hm ⊢
    cases hm with
    | done b mid =>
      cases b with
      | true => exact hround.unlessReturned (Maps.rounds hcondition hround left) mid
      | false => exact .done _ mid
    | failed mid hd => exact .failed mid hd
    | exhausted => exact .exhausted

/-- A loop over items goes round once for each on both sides. -/
theorem Maps.forItems {round round' : Value → Run Flow}
    (h : ∀ item, Maps f g (round item) (round' item)) :
    ∀ items, Maps f g (forItems round items) (forItems round' items)
  | [] => maps_pure _
  | item :: items => (h item).unlessReturned (Maps.forItems h items)

/-- What is printed does not depend on what can be called. -/
theorem print_maps (values : List Value) : Maps f g (print values) (print values) := fun _ =>
  .done ..

section Places

variable (h : SamePlace g p q)

include h

/-- The run that reads a variable is its own image. -/
theorem lookupVariable_maps (n : String) :
    Maps f g (look (·.lookupVariable n q)) (look (·.lookupVariable n p)) :=
  maps_look (Machine.lookupVariable_mapCallables h n)

/-- So is the run that assigns to one. -/
theorem assign_maps (n : String) (value : Value) :
    Maps f g (change (·.assign n value q)) (change (·.assign n value p)) :=
  maps_change (Machine.assign_mapCallables h n value)

/-- So is the run that declares one. -/
theorem declare_maps (n : String) (value : Value) :
    Maps f g (change (·.declare n value q)) (change (·.declare n value p)) :=
  maps_change (Machine.changeScopes_mapCallables (Machine.defineVariable_mapCallables h n value))

theorem declareInRoot_maps (n : String) (value : Value) :
    Maps f g (change (·.declareInRoot n value q)) (change (·.declareInRoot n value p)) :=
  maps_change (Machine.changeScopes_mapCallables fun s _ =>
    Machine.defineVariable_mapCallables h n value s Scopes.root)

/-- The run that declares a function has the one that declares the replacement as image. -/
theorem declareFunction_maps (n : String) (arity : Nat) (callable : Callable) :
    Maps f g (change (·.declareFunction n arity callable q))
      (change (·.declareFunction n arity (f callable) p)) :=
  maps_change (Machine.changeScopes_mapCallables fun s _ =>
    Machine.defineFunction_mapCallables h n arity callable s Scopes.root)

/-- Parameters are declared one after the other with the same values. -/
theorem declareParameters_maps :
    ∀ (parameters : List (String × String)) (values : List Value),
      Maps f g (declareParameters q parameters values) (declareParameters p parameters values)
  | parameter :: parameters, value :: values =>
    (declare_maps h parameter.1 value).bind fun _ => declareParameters_maps parameters values
  | [], _ => maps_pure _
  | _ :: _, [] => maps_pure _

end Places

end Run

/-- Calls come to images of one another, wherever they are blamed for a failure. -/
def Caller.Maps (f : Callable → Callable) (g : Diagnostic → Diagnostic) (caller image : Caller) :
    Prop :=
  ∀ name arguments {p q}, SamePlace g p q →
    Run.Maps f g (caller name arguments q) (image name arguments p)

/-! ## Images of answers -/

section Answers

variable {first first' : Except Diagnostic α}

/-- Answers that are the same once diagnostics are replaced, and are so after what follows. -/
theorem mapError_bind {next next' : α → Except Diagnostic β}
    (h : first'.mapError g = first.mapError g)
    (hnext : ∀ x, (next' x).mapError g = (next x).mapError g) :
    (first' >>= next').mapError g = (first >>= next).mapError g := by
  cases first with
  | ok x =>
    cases first' with
    | ok x' =>
      obtain rfl : x' = x := Except.ok.inj h
      exact hnext x'
    | error d' => cases h
  | error d =>
    cases first' with
    | ok x' => cases h
    | error d' => exact congrArg Except.error (Except.error.inj h)

theorem map_bind (next : α → Except Diagnostic β) {γ : Type} (k : β → γ) :
    (first >>= next).map k = first >>= fun x => (next x).map k := by
  cases first <;> rfl

namespace Value

/-- Two ways to the same part of a value. -/
def SamePath (g : Diagnostic → Diagnostic) (a b : Path) : Prop :=
  List.Forall₂ (fun x y => x.1 = y.1 ∧ SamePlace g x.2 y.2) a b

/-- A value is changed alike along both ways. -/
theorem change_samePath {step step' : Value → Except Diagnostic Value}
    (hstep : ∀ value, (step' value).mapError g = (step value).mapError g) {a b : Path}
    (h : SamePath g a b) (value : Value) :
    (change step' a value).mapError g = (change step b value).mapError g := by
  induction h generalizing value with
  | nil => exact hstep value
  | @cons x y as bs hxy _ ih =>
    obtain ⟨n, p⟩ := x
    obtain ⟨n', q⟩ := y
    obtain ⟨rfl, hplace⟩ := hxy
    refine mapError_bind ?_ fun part => mapError_bind (ih part) fun _ => rfl
    rw [field, field]
    cases value.field? n with
    | some part => rfl
    | none => exact congrArg Except.error (hplace _)

variable (h : SamePlace g p q)

include h

/-- A value is true, false or no truth value, wherever it is asked. -/
theorem truth_samePlace (value : Value) :
    (value.truth p).mapError g = (value.truth q).mapError g := by
  unfold truth
  split
  · rfl
  · exact congrArg Except.error (h _)

/-- An operator gives the same, or fails at places that are the same for `g`. -/
theorem apply_samePlace (operator : Operator) (left right : Value) :
    (apply operator left right p).mapError g = (apply operator left right q).mapError g := by
  have hordered : ∀ holds, (ordered left right p holds).mapError g =
      (ordered left right q holds).mapError g := by
    intro holds
    rw [ordered, ordered]
    cases order? left right with
    | some order => rfl
    | none => exact congrArg Except.error (h _)
  have harithmetic : ∀ whole fraction, (arithmetic left right p whole fraction).mapError g =
      (arithmetic left right q whole fraction).mapError g := by
    intro whole fraction
    unfold arithmetic
    split
    · rfl
    · rfl
    · exact congrArg Except.error (h _)
  cases operator with
  | equals => rfl
  | notEquals => rfl
  | less => exact hordered _
  | lessEquals => exact hordered _
  | greater => exact hordered _
  | greaterEquals => exact hordered _
  | plus =>
    rw [apply, apply]
    split
    · rfl
    · exact harithmetic _ _
  | minus => exact harithmetic _ _
  | multiply => exact harithmetic _ _
  | divide =>
    rw [apply, apply]
    split
    · exact congrArg Except.error (h _)
    · exact harithmetic _ _
  | and =>
    exact mapError_bind (truth_samePlace h left) fun _ =>
      mapError_bind (truth_samePlace h right) fun _ => rfl
  | or =>
    exact mapError_bind (truth_samePlace h left) fun _ =>
      mapError_bind (truth_samePlace h right) fun _ => rfl

/-- A field is there or missing, wherever it is asked for. -/
theorem field_samePlace (value : Value) (n : String) :
    (value.field n p).mapError g = (value.field n q).mapError g := by
  rw [field, field]
  cases value.field? n with
  | some part => rfl
  | none => exact congrArg Except.error (h _)

theorem setField_samePlace (value : Value) (n : String) (new : Value) :
    (value.setField n new p).mapError g = (value.setField n new q).mapError g := by
  rw [setField, setField]
  cases value.field? n with
  | some part => rfl
  | none => exact congrArg Except.error (h _)

/-- A method of a record does the same; what it fails with is its own. -/
theorem callMethod_samePlace (host : Host) (value : Value) (n : String) (arguments : List Value) :
    (value.callMethod host n arguments p).mapError g =
      (value.callMethod host n arguments q).mapError g := by
  rw [callMethod, callMethod]
  cases value.handle? n arguments.length with
  | some handle => rfl
  | none => exact congrArg Except.error (h _)

end Value

end Answers

/-- Two places that designate the same part of the same variable. -/
structure Place.Same (g : Diagnostic → Diagnostic) (a b : Place) : Prop where
  /-- the variable -/
  name : a.name = b.name
  /-- where it is blamed for a failure -/
  position : SamePlace g a.position b.position
  /-- the way to the part -/
  path : Value.SamePath g a.path b.path

theorem Place.Same.refl {g : Diagnostic → Diagnostic} (a : Place) : Place.Same g a a :=
  ⟨rfl, .refl, List.forall₂_same.mpr fun _ _ => ⟨rfl, .refl⟩⟩

/-- The part that a place designates is changed on both sides. -/
theorem Place.change_maps {a b : Place} (h : Place.Same g a b)
    {step step' : Value → Except Diagnostic Value}
    (hstep : ∀ value, (step' value).mapError g = (step value).mapError g) :
    Run.Maps f g (b.change step) (a.change step') := by
  refine Run.maps_change fun m => ?_
  rw [h.name, map_bind]
  refine mapError_bind (Machine.lookupVariable_mapCallables h.position b.name m) fun value => ?_
  rw [map_bind]
  exact mapError_bind (Value.change_samePath hstep h.path value) fun new =>
    Machine.assign_mapCallables h.position b.name new m

/-- An operator maps to the operator, if the run for its right operand does. `AND` and `OR` leave
out that run on both sides or on neither. -/
theorem Expr.evaluateBinary_maps (h : SamePlace g p q) (operator : Operator) (left : Value)
    {right right' : Run Value} (hright : Run.Maps f g right right') :
    Run.Maps f g (evaluateBinary operator left right q)
      (evaluateBinary operator left right' p) := by
  have htruth : Run.Maps f g (do
      let value ← right
      let b ← Run.ofExcept (value.truth q)
      return Value.boolean b : Run Value) (do
      let value ← right'
      let b ← Run.ofExcept (value.truth p)
      return Value.boolean b) :=
    hright.bind fun value => (Run.maps_ofExcept (value.truth_samePlace h)).bind fun _ =>
      Run.maps_pure _
  unfold evaluateBinary
  split
  · refine (Run.maps_ofExcept (left.truth_samePlace h)).bind fun b => ?_
    split
    · exact htruth
    · exact Run.maps_pure _
  · refine (Run.maps_ofExcept (left.truth_samePlace h)).bind fun b => ?_
    split
    · exact Run.maps_pure _
    · exact htruth
  · exact hright.bind fun value => Run.maps_ofExcept (Value.apply_samePlace h _ left value)

end TeachLang
