import TeachLang.Proofs.Scopes

/-!
# Levels

What nested scopes are good for can be said without arrays, tables and chains. In the plain account
of them a scope is a **level**: where it is nested, and two association lists in the order of
definition. A name is searched level by level outward (`Levels.nearest?`), and all else that can be
done is an insertion at the end of a list or the replacement of a value.

Both kinds of scopes take the same requests and give replies of the same kind, so that they can be
held against each other: `Scopes.perform` and `Levels.perform` answer one request, `respond` answers
a sequence of them.
-/

namespace TeachLang

/-! ## Requests -/

/-- What can be asked of nested scopes. Each request names the scope that it is about. -/
inductive Request (V F : Type)
  /-- a new scope that is nested in a scope -/
  | child (parent : Nat)
  /-- a new variable of a scope -/
  | defineVariable (id : Nat) (name : String) (value : V) (position : Position)
  /-- a new function of a scope -/
  | defineFunction (id : Nat) (name : String) (arity : Nat) (f : F) (position : Position)
  /-- the value that a name has in a scope -/
  | lookupVariable (id : Nat) (name : String) (position : Position)
  /-- another value for the variable that a name means in a scope -/
  | assign (id : Nat) (name : String) (value : V) (position : Position)
  /-- the function that a name and number of parameters mean in a scope -/
  | lookupFunction (id : Nat) (name : String) (arity : Nat) (position : Position)
  /-- the variables of a scope itself -/
  | bindings (id : Nat)
  /-- the release of a scope and all that are newer -/
  | release (id : Nat)

/-- The reply to a request. -/
inductive Reply (V F : Type)
  /-- the place of a new scope -/
  | scope (id : Nat)
  /-- the value of a variable -/
  | value (value : V)
  /-- a function -/
  | function (f : F)
  /-- the variables of a scope in the order of their definition -/
  | bindings (bindings : List (String × V))
  /-- what was asked for was done -/
  | done
  /-- what was asked for could not be done -/
  | fault (d : Diagnostic)

variable {V F S : Type}

namespace Request

/-- The scope that a request names. -/
def place : Request V F → Nat
  | child parent => parent
  | defineVariable id .. | defineFunction id .. | lookupVariable id .. | assign id ..
  | lookupFunction id .. | bindings id | release id => id

/-- A request that names a live scope, of so many, and does not release the root. -/
def Live (depth : Nat) (r : Request V F) : Prop :=
  r.place < depth ∧ ∀ id, r = release id → id ≠ Scopes.root

/-- A request that creates and defines nothing outside a scope and those that are newer. -/
def Inside (c : Nat) : Request V F → Prop
  | child id | defineVariable id .. | defineFunction id .. => c ≤ id
  | _ => True

end Request

namespace Reply

/-- The reply to a request that changes something, and what there is then. -/
def changed (old : S) : Except Diagnostic S → Reply V F × S
  | .ok new => (done, new)
  | .error d => (fault d, old)

/-- The reply to a request that only asks. -/
def answered {A : Type} (reply : A → Reply V F) : Except Diagnostic A → Reply V F
  | .ok a => reply a
  | .error d => fault d

end Reply

/-- The replies to a sequence of requests, and what there is after them. -/
def respond (perform : S → Request V F → Reply V F × S) :
    S → List (Request V F) → List (Reply V F) × S
  | s, [] => ([], s)
  | s, r :: requests =>
    let (reply, s) := perform s r
    let (replies, s) := respond perform s requests
    (reply :: replies, s)

/-! ## The scopes themselves -/

namespace Scopes

/-- Does what a request asks for. -/
def perform (s : Scopes V F) : Request V F → Reply V F × Scopes V F
  | .child parent => (.scope s.fresh, s.child parent)
  | .defineVariable id name value position =>
    Reply.changed s (s.defineVariable id name value position)
  | .defineFunction id name arity f position =>
    Reply.changed s (s.defineFunction id name arity f position)
  | .lookupVariable id name position => (.answered .value (s.lookupVariable id name position), s)
  | .assign id name value position => Reply.changed s (s.assign id name value position)
  | .lookupFunction id name arity position =>
    (.answered .function (s.lookupFunction id name arity position), s)
  | .bindings id => (.bindings (s.bindings id), s)
  | .release id => (.done, s.release id)

/-- Every request of a sequence names a scope that is live when its turn comes, and none releases
the root. -/
def Admits (s : Scopes V F) : List (Request V F) → Prop
  | [] => True
  | r :: requests => r.Live s.depth ∧ (s.perform r).2.Admits requests

end Scopes

/-! ## The plain account -/

/-- One scope: where it is nested, and what is defined in it. -/
structure Level (V F : Type) where
  /-- the scope that it is nested in -/
  parent : Option Nat
  /-- its variables, the oldest first -/
  bindings : List (String × V)
  /-- its functions, the oldest first -/
  functions : List ((String × Nat) × F)

/-- The live scopes, the oldest first. -/
structure Levels (V F : Type) where
  /-- the scopes, each in the place by which it is known -/
  levels : List (Level V F)

namespace Levels

/-- Only the root, without definitions. -/
def initial : Levels V F := ⟨[⟨none, [], []⟩]⟩

/-- The nearest level outward in which something is found, and what is found there. -/
def nearest? {A : Type} (s : Levels V F) (find : Level V F → Option A) (id : Nat) :
    Option (Nat × A) :=
  match s.levels[id]? with
  | none => none
  | some level =>
    match find level, level.parent with
    | some a, _ => some (id, a)
    | none, none => none
    | none, some parent => if parent < id then s.nearest? find parent else none
termination_by id

/-- The level in a place is changed. -/
def change (s : Levels V F) (id : Nat) (f : Level V F → Level V F) : Levels V F :=
  ⟨s.levels.modify id f⟩

/-- Something is found in the level in a place. -/
def has {A : Type} (s : Levels V F) (find : Level V F → Option A) (id : Nat) : Bool :=
  (s.levels[id]?.bind find).isSome

/-- Does what a request asks for. -/
def perform (s : Levels V F) : Request V F → Reply V F × Levels V F
  | .child parent => (.scope s.levels.length, ⟨s.levels ++ [⟨some parent, [], []⟩]⟩)
  | .defineVariable id name value position =>
    if s.has (·.bindings.lookup name) id then (.fault ⟨.duplicateDefinition name, position⟩, s)
    else (.done, s.change id fun l => { l with bindings := l.bindings ++ [(name, value)] })
  | .defineFunction id name arity f position =>
    if s.has (·.functions.lookup (name, arity)) id then
      (.fault ⟨.duplicateDefinition (withArity name arity), position⟩, s)
    else (.done, s.change id fun l => { l with functions := l.functions ++ [((name, arity), f)] })
  | .lookupVariable id name position =>
    match s.nearest? (·.bindings.lookup name) id with
    | some (_, value) => (.value value, s)
    | none => (.fault ⟨.undefinedName name, position⟩, s)
  | .assign id name value position =>
    match s.nearest? (·.bindings.lookup name) id with
    | some (home, _) =>
      let replace := fun binding => if binding.1 = name then (name, value) else binding
      (.done, s.change home fun l => { l with bindings := l.bindings.map replace })
    | none => (.fault ⟨.undefinedName name, position⟩, s)
  | .lookupFunction id name arity position =>
    match s.nearest? (·.functions.lookup (name, arity)) id with
    | some (_, f) => (.function f, s)
    | none => (.fault ⟨.undefinedName (withArity name arity), position⟩, s)
  | .bindings id => (.bindings (s.levels[id]?.elim [] Level.bindings), s)
  | .release id => (.done, ⟨s.levels.take id⟩)

end Levels

/-! ## The account of some scopes -/

/-- What a scope is in the plain account. -/
def Scope.level (scope : Scope V F) : Level V F := ⟨scope.parent, scope.bindings, scope.functions⟩

namespace Scopes

/-- What some scopes are in the plain account. -/
def levels (s : Scopes V F) : Levels V F := ⟨s.scopes.toList.map Scope.level⟩

theorem getElem?_levels (s : Scopes V F) (id : Nat) :
    s.levels.levels[id]? = (s.get? id).map Scope.level := by
  rw [levels, List.getElem?_map, Array.getElem?_toList]
  rfl

/-- A change of one scope is a change of its level. -/
theorem levels_modify (s : Scopes V F) (id : Nat) {f : Scope V F → Scope V F}
    {g : Level V F → Level V F}
    (h : ∀ scope, s.get? id = some scope → (f scope).level = g scope.level) :
    (⟨s.scopes.modify id f⟩ : Scopes V F).levels = s.levels.change id g := by
  apply congrArg Levels.mk
  apply List.ext_getElem?
  intro i
  change ((s.scopes.modify id f).toList.map Scope.level)[i]? =
    ((s.scopes.toList.map Scope.level).modify id g)[i]?
  rw [List.getElem?_modify, List.getElem?_map, List.getElem?_map, Array.getElem?_toList,
    Array.getElem?_toList, Array.getElem?_modify]
  by_cases hi : id = i
  · subst hi
    rw [if_pos rfl]
    cases hscope : s.scopes[id]? with
    | none => rfl
    | some scope => simpa using h scope hscope
  · simp [hi]

/-- Level by level outward the scopes are searched in the order of the chain. -/
theorem Ordered.nearest?_levels {A : Type} {s : Scopes V F} (hs : s.Ordered)
    (find : Level V F → Option A) : ∀ {id : Nat}, id < s.depth →
      s.levels.nearest? find id =
        (s.chain id).findSome? fun i => ((s.get? i).bind (find ·.level)).map (i, ·) := by
  intro id
  induction id using Nat.strongRecOn with
  | ind id ih =>
    intro hid
    obtain ⟨scope, hscope⟩ := get?_eq_some_of_lt hid
    rw [Levels.nearest?, getElem?_levels, hs.chain_eq hscope, List.findSome?_cons, hscope]
    simp only [Option.map_some, Option.bind_some]
    have hparent : scope.level.parent = scope.parent := rfl
    cases hfind : find scope.level with
    | some a => simp
    | none =>
      rw [hparent]
      rcases hs.nested hscope with ⟨hp, -⟩ | ⟨p, hp, hlt⟩
      · simp [hp]
      · simp only [hp, hlt, if_true, Option.map_none, Option.elim_some]
        exact ih p hlt (by omega)

end Scopes

end TeachLang
