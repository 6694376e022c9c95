import TeachLang.Scope.Table
import TeachLang.Ty

/-!
# Scopes

Definitions live in **scopes**, which are nested: a name means its nearest definition outward.
Static checking keeps variables and signatures in scopes, running a program values and callables.

All scopes of a run stand in one list and are known by their place in it. The first is the root. A
new scope goes to the end, whichever scope it is nested in, and a scope is released together with
all that came after it.

* `Scopes.chain` lists the scopes that are searched for a name, the nearest first;
* a definition is refused if its scope has one of the same name already, where functions with
  different numbers of parameters have different names.
-/

namespace TeachLang

/-- One scope with variables of the type `V` and functions of the type `F`. -/
structure Scope (V F : Type) where
  /-- the scope that it is nested in -/
  parent : Option Nat
  /-- its variables, known by name -/
  variableTable : Table String V
  /-- its functions, known by name and number of parameters -/
  functionTable : Table (String × Nat) F

namespace Scope

variable {V F : Type}

/-- Its variables in the order of their definition. -/
def bindings (scope : Scope V F) : List (String × V) := scope.variableTable.toList

/-- Its functions in the order of their definition. -/
def functions (scope : Scope V F) : List ((String × Nat) × F) := scope.functionTable.toList

/-- A scope with the given definitions. -/
def ofLists (parent : Option Nat) (bindings : List (String × V))
    (functions : List ((String × Nat) × F)) : Scope V F :=
  ⟨parent, .ofList bindings, .ofList functions⟩

/-- A scope without definitions. -/
def empty (parent : Option Nat) : Scope V F := ⟨parent, .empty, .empty⟩

/-- Adds a variable. -/
def addVariable (scope : Scope V F) (name : String) (value : V) : Scope V F :=
  { scope with variableTable := scope.variableTable.push name value }

/-- Gives a variable another value. -/
def setVariable (scope : Scope V F) (name : String) (value : V) : Scope V F :=
  { scope with variableTable := scope.variableTable.set name value }

/-- Adds a function. -/
def addFunction (scope : Scope V F) (key : String × Nat) (f : F) : Scope V F :=
  { scope with functionTable := scope.functionTable.push key f }

/-! ## Scopes as lists -/

/-- The first binding of a name is given another value. -/
def rebind (name : String) (value : V) : List (String × V) → List (String × V)
  | [] => []
  | (n, v) :: others =>
    if n = name then (n, value) :: others else (n, v) :: rebind name value others

/-- After a name that is there got another value it has that, and other names have what they had. -/
theorem lookup_rebind {bindings : List (String × V)} {name : String} {value : V}
    (h : (bindings.lookup name).isSome) (n : String) :
    (rebind name value bindings).lookup n = if n = name then some value else bindings.lookup n := by
  induction bindings with
  | nil => cases h
  | cons binding bindings ih =>
    obtain ⟨x, v⟩ := binding
    rw [rebind]
    by_cases hx : x = name
    · rw [if_pos hx, List.lookup_cons, List.lookup_cons, hx]
      by_cases hn : n = name
      · rw [if_pos hn, beq_iff_eq.mpr hn]
      · rw [if_neg hn, beq_eq_false_iff_ne.mpr hn]
    · rw [List.lookup_cons, beq_eq_false_iff_ne.mpr (Ne.symm hx)] at h
      rw [if_neg hx, List.lookup_cons, List.lookup_cons, ih h]
      by_cases hn : n = x
      · rw [beq_iff_eq.mpr hn]
        exact (if_neg (hn ▸ hx)).symm
      · rw [beq_eq_false_iff_ne.mpr hn]

/-- Scopes that are nested alike are the same if their definitions are. -/
theorem ext_lists {a b : Scope V F} (hparent : a.parent = b.parent)
    (hbindings : a.bindings = b.bindings) (hfunctions : a.functions = b.functions) : a = b := by
  obtain ⟨parent, variableTable, functionTable⟩ := a
  obtain ⟨parent', variableTable', functionTable'⟩ := b
  obtain rfl : parent = parent' := hparent
  obtain rfl := Table.ext_toList hbindings
  obtain rfl := Table.ext_toList hfunctions
  rfl

/-- The variable of a name is its first binding. -/
theorem get?_variableTable (scope : Scope V F) (name : String) :
    scope.variableTable.get? name = scope.bindings.lookup name :=
  scope.variableTable.get?_eq name

/-- The function of a name and number of parameters is the first one that is known so. -/
theorem get?_functionTable (scope : Scope V F) (key : String × Nat) :
    scope.functionTable.get? key = scope.functions.lookup key :=
  scope.functionTable.get?_eq key

@[simp] theorem bindings_ofLists (parent : Option Nat) (bindings : List (String × V))
    (functions : List ((String × Nat) × F)) :
    (ofLists parent bindings functions).bindings = bindings := rfl

@[simp] theorem functions_ofLists (parent : Option Nat) (bindings : List (String × V))
    (functions : List ((String × Nat) × F)) :
    (ofLists parent bindings functions).functions = functions :=
  rfl

@[simp] theorem bindings_addVariable (scope : Scope V F) (name : String) (value : V) :
    (scope.addVariable name value).bindings = scope.bindings ++ [(name, value)] :=
  Table.toList_push ..

@[simp] theorem functions_addVariable (scope : Scope V F) (name : String) (value : V) :
    (scope.addVariable name value).functions = scope.functions :=
  rfl

@[simp] theorem functions_setVariable (scope : Scope V F) (name : String) (value : V) :
    (scope.setVariable name value).functions = scope.functions :=
  rfl

@[simp] theorem bindings_addFunction (scope : Scope V F) (key : String × Nat) (f : F) :
    (scope.addFunction key f).bindings = scope.bindings :=
  rfl

@[simp] theorem functions_addFunction (scope : Scope V F) (key : String × Nat) (f : F) :
    (scope.addFunction key f).functions = scope.functions ++ [(key, f)] :=
  Table.toList_push ..

@[simp] theorem bindings_setVariable (scope : Scope V F) (name : String) (value : V) :
    (scope.setVariable name value).bindings = rebind name value scope.bindings := by
  have hfirst : ∀ bindings : List (String × V),
      (bindings.findIdx? fun binding => name == binding.1).elim bindings
        (fun place => bindings.modify place fun binding => (binding.1, value)) =
      rebind name value bindings := by
    intro bindings
    induction bindings with
    | nil => rfl
    | cons binding bindings ih =>
      obtain ⟨n, v⟩ := binding
      rw [List.findIdx?_cons, rebind]
      by_cases hn : n = name
      · simp [hn]
      · rw [if_neg hn, ← ih, beq_eq_false_iff_ne.mpr (Ne.symm hn)]
        cases bindings.findIdx? fun binding => name == binding.1 <;> rfl
  exact (Table.toList_set ..).trans (hfirst _)

end Scope

/-- The live scopes, each in the place by which it is known. -/
structure Scopes (V F : Type) where
  /-- the scopes, the root first -/
  scopes : Array (Scope V F)

namespace Scopes

variable {V F : Type}

/-- The place of the root. -/
def root : Nat := 0

/-- Only the root, with the given functions. -/
def ofFunctions (functions : List ((String × Nat) × F)) : Scopes V F :=
  ⟨#[.ofLists none [] functions]⟩

/-- Only the root, without definitions. -/
def initial : Scopes V F := ofFunctions []

instance : Inhabited (Scopes V F) := ⟨initial⟩

/-- Number of live scopes, the root included. -/
def depth (s : Scopes V F) : Nat := s.scopes.size

/-- The scope in a place. -/
def get? (s : Scopes V F) (id : Nat) : Option (Scope V F) := s.scopes[id]?

/-- The place that the next scope gets. -/
def fresh (s : Scopes V F) : Nat := s.scopes.size

/-- Adds a scope nested in `parent`, in the place `fresh`. -/
def child (s : Scopes V F) (parent : Nat) : Scopes V F := ⟨s.scopes.push (.empty (some parent))⟩

/-- Releases a scope and all that were added after it. The root is never released. -/
def release (s : Scopes V F) (id : Nat) : Scopes V F := ⟨s.scopes.shrink (max id 1)⟩

/-- The scopes from a place outward, at most `limit` of them. -/
def outward (s : Scopes V F) : Nat → Nat → List Nat
  | 0, _ => []
  | limit + 1, id =>
    match s.get? id with
    | none => []
    | some scope => id :: scope.parent.elim [] (s.outward limit)

/-- The scopes that are searched for a name that is used in a scope, the nearest first. -/
def chain (s : Scopes V F) (id : Nat) : List Nat := s.outward s.depth id

/-! ## Variables -/

/-- The variable of a name in one scope. -/
def variableIn? (s : Scopes V F) (name : String) (id : Nat) : Option V :=
  (s.get? id).bind fun scope => scope.variableTable.get? name

/-- The nearest scope that has a variable of the name. -/
def home? (s : Scopes V F) (id : Nat) (name : String) : Option Nat :=
  (s.chain id).find? fun i => (s.variableIn? name i).isSome

/-- The nearest variable of a name. -/
def nearestVariable? (s : Scopes V F) (id : Nat) (name : String) : Option V :=
  (s.chain id).findSome? (s.variableIn? name)

/-- The nearest variable of a name, or the fault of having none. -/
def lookupVariable (s : Scopes V F) (id : Nat) (name : String) (position : Position) :
    Except Diagnostic V :=
  match s.nearestVariable? id name with
  | some value => .ok value
  | none => .error ⟨.undefinedName name, position⟩

/-- Adds a variable to a scope. -/
def defineVariable (s : Scopes V F) (id : Nat) (name : String) (value : V) (position : Position) :
    Except Diagnostic (Scopes V F) :=
  match s.variableIn? name id with
  | some _ => .error ⟨.duplicateDefinition name, position⟩
  | none => .ok ⟨s.scopes.modify id (·.addVariable name value)⟩

/-- Gives the nearest variable of a name another value. -/
def assign (s : Scopes V F) (id : Nat) (name : String) (value : V) (position : Position) :
    Except Diagnostic (Scopes V F) :=
  match s.home? id name with
  | some home => .ok ⟨s.scopes.modify home (·.setVariable name value)⟩
  | none => .error ⟨.undefinedName name, position⟩

/-- The variables of one scope in the order of their definition. -/
def bindings (s : Scopes V F) (id : Nat) : List (String × V) :=
  (s.get? id).elim [] Scope.bindings

/-! ## Functions -/

/-- The function of a name and number of parameters in one scope. -/
def functionIn? (s : Scopes V F) (name : String) (arity : Nat) (id : Nat) : Option F :=
  (s.get? id).bind fun scope => scope.functionTable.get? (name, arity)

/-- The nearest function of a name and number of parameters. -/
def nearestFunction? (s : Scopes V F) (id : Nat) (name : String) (arity : Nat) : Option F :=
  (s.chain id).findSome? (s.functionIn? name arity)

/-- The nearest function of a name and number of parameters, or the fault of having none. -/
def lookupFunction (s : Scopes V F) (id : Nat) (name : String) (arity : Nat)
    (position : Position) : Except Diagnostic F :=
  match s.nearestFunction? id name arity with
  | some f => .ok f
  | none => .error ⟨.undefinedName (withArity name arity), position⟩

/-- Adds a function to a scope. -/
def defineFunction (s : Scopes V F) (id : Nat) (name : String) (arity : Nat) (f : F)
    (position : Position) : Except Diagnostic (Scopes V F) :=
  match s.functionIn? name arity id with
  | some _ => .error ⟨.duplicateDefinition (withArity name arity), position⟩
  | none => .ok ⟨s.scopes.modify id (·.addFunction (name, arity) f)⟩

end Scopes

end TeachLang
