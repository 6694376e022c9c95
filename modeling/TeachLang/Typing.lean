import TeachLang.Syntax
import TeachLang.Scope

/-!
# Static checking

Before a program is run or emitted, every name in it is resolved and every expression gets a type.
A **checker** knows the types that a program can name and what is defined in the scopes around the
place that is being checked.

Checking a tree comes to a `Checked` result: the tree with its slots filled, and a verdict. Where
the verdict is a diagnostic, the slots are filled as far as checking came, and those beyond are
left as they were.
-/

namespace TeachLang

/-- What is known in the place that is being checked. -/
structure Checker where
  /-- the types that can be named -/
  registry : Registry
  /-- the variables and functions in the scopes around the place -/
  scopes : Scopes Variable Signature
  /-- the innermost of these scopes -/
  scope : Nat

namespace Checker

/-- A checker with the types of a registry and no definitions but `print`, in the root. -/
def ofRegistry (registry : Registry) : Checker :=
  ⟨registry, .ofFunctions [((Signature.print.name, Signature.print.arity), .print)], Scopes.root⟩

/-- The checker of programs that use the language alone. -/
def initial : Checker := ofRegistry .builtin

instance : Inhabited Checker := ⟨initial⟩

/-- Number of live scopes. -/
def depth (c : Checker) : Nat := c.scopes.depth

/-! ## Definitions -/

/-- The type of a name. -/
def resolveTy (c : Checker) (name : String) (position : Position) : Except Diagnostic Ty :=
  c.registry.lookup name position

/-- The variable that a name means here. -/
def lookupVariable (c : Checker) (name : String) (position : Position) :
    Except Diagnostic Variable :=
  c.scopes.lookupVariable c.scope name position

/-- The function that a name with a number of arguments means here. -/
def lookupFunction (c : Checker) (name : String) (arity : Nat) (position : Position) :
    Except Diagnostic Signature :=
  c.scopes.lookupFunction c.scope name arity position

/-- Adds a variable to the innermost scope. -/
def declare (c : Checker) (v : Variable) (position : Position) : Except Diagnostic Checker := do
  return { c with scopes := ← c.scopes.defineVariable c.scope v.name v position }

/-- Adds a function to the innermost scope. -/
def declareFunction (c : Checker) (f : Signature) (position : Position) :
    Except Diagnostic Checker := do
  return { c with scopes := ← c.scopes.defineFunction c.scope f.name f.arity f position }

/-- Adds a variable that the host supplies to the root. -/
def defineVariable (c : Checker) (name : String) (ty : Ty) : Except Diagnostic Checker := do
  return { c with
    scopes := ← c.scopes.defineVariable Scopes.root name (.plain name ty) .nowhere }

/-- Adds a function that the host supplies to the root. -/
def defineFunction (c : Checker) (f : Signature) : Except Diagnostic Checker := do
  return { c with scopes := ← c.scopes.defineFunction Scopes.root f.name f.arity f .nowhere }

/-- Adds a type that the host supplies. -/
def register (c : Checker) (ty : Ty) : Except Diagnostic Checker := do
  return { c with registry := ← c.registry.register ty }

/-- The checker inside a new scope. Whoever goes on with the checker from before forgets what is
defined in there. -/
def enter (c : Checker) : Checker :=
  { c with scopes := c.scopes.child c.scope, scope := c.scopes.fresh }

end Checker

/-- A tree after checking, and the verdict on it. -/
structure Checked (T R : Type) where
  /-- the tree, its slots filled as far as checking came -/
  tree : T
  /-- what was found out -/
  verdict : Except Diagnostic R

namespace Checked

variable {T U R S : Type}

/-- A tree that needs no further look. -/
def pass (tree : T) (found : R) : Checked T R := ⟨tree, .ok found⟩

/-- A tree in which nothing was filled because of a fault. -/
def fail (tree : T) (fault : Fault) (position : Position) : Checked T R :=
  ⟨tree, .error ⟨fault, position⟩⟩

/-- Fills a slot with what was found, or leaves in it what it held. -/
def fill (node : Option S → T) (held : Option S) : Except Diagnostic S → Checked T S
  | .ok found => ⟨node (some found), .ok found⟩
  | .error d => ⟨node held, .error d⟩

/-- Goes on with the verdict on a part, or stops there and puts the part in its place. -/
def andThen (part : Checked T R) (stopped : T → U) (next : T → R → Checked U S) : Checked U S :=
  match part.verdict with
  | .ok found => next part.tree found
  | .error d => ⟨stopped part.tree, .error d⟩

/-- Draws a conclusion from the verdict. -/
def map (f : R → S) (checked : Checked T R) : Checked T S :=
  ⟨checked.tree, checked.verdict.map f⟩

/-- Puts the tree in its place. -/
def within (place : T → U) (checked : Checked T R) : Checked U R :=
  ⟨place checked.tree, checked.verdict⟩

/-- Puts a good verdict to a further test. -/
def require (test : R → Except Diagnostic Unit) (checked : Checked T R) : Checked T R :=
  ⟨checked.tree, do let found ← checked.verdict; test found; return found⟩

end Checked

end TeachLang
