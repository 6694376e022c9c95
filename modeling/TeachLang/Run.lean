import TeachLang.Value.Apply

/-!
# Running

A program runs on a **machine**: the live scopes with the values of variables, the scope in which
the program stands, and what was printed. A **run** is one piece of work on a machine. It comes to
one of three ends: it is done with a result, it fails with a diagnostic, or it is exhausted, because
it was given too little fuel. A failed run leaves the machine behind as well, so that the next run
can use it.

`Run.inScope` is the only way into another scope. Whatever happens there, the machine is back in
the old scope afterwards and the new one is released.
-/

namespace TeachLang

/-- Where printed lines go. -/
inductive Printer where
  /-- they are kept -/
  | keep (text : String)
  /-- they are thrown away -/
  | discard
  deriving DecidableEq, Repr

namespace Printer

/-- A printer that keeps lines and has none yet. -/
def empty : Printer := keep ""

/-- Prints a line. -/
def printLine (line : String) : Printer → Printer
  | keep text => keep (text ++ line ++ "\n")
  | discard => discard

/-- All the lines that are kept. -/
def text : Printer → String
  | keep text => text
  | discard => ""

/-- Forgets the lines that are kept. -/
def clear : Printer → Printer
  | keep _ => empty
  | discard => discard

end Printer

/-- What a program can call. -/
inductive Callable where
  /-- prints its arguments -/
  | print
  /-- a function that the host supplies -/
  | native (answer : Native)
  /-- a method of the program, and the scope that it was defined in -/
  | method (m : Method) (scope : Nat)

/-- The state of a running program. -/
structure Machine where
  /-- the live scopes -/
  scopes : Scopes Value Callable
  /-- the scope in which the program stands -/
  scope : Nat
  /-- where printed lines go -/
  printer : Printer

namespace Machine

/-- A machine with a printer and no definitions but `print`, in the root. -/
def ofPrinter (printer : Printer) : Machine :=
  ⟨.ofFunctions [((Signature.print.name, Signature.print.arity), .print)], Scopes.root, printer⟩

/-- A machine that keeps what is printed. -/
def initial : Machine := ofPrinter .empty

instance : Inhabited Machine := ⟨initial⟩

/-- Number of live scopes. -/
def depth (m : Machine) : Nat := m.scopes.depth

/-- All that was printed and kept. -/
def printed (m : Machine) : String := m.printer.text

/-- Forgets what was printed. -/
def clearPrinted (m : Machine) : Machine := { m with printer := m.printer.clear }

/-- The value of a variable. -/
def lookupVariable (m : Machine) (name : String) (position : Position) : Except Diagnostic Value :=
  m.scopes.lookupVariable m.scope name position

/-- Changes the scopes, unless there is a diagnostic. -/
def changeScopes
    (change : Scopes Value Callable → Nat → Except Diagnostic (Scopes Value Callable)) :
    Machine → Except Diagnostic Machine
  | ⟨scopes, scope, printer⟩ =>
    match change scopes scope with
    | .ok changed => .ok ⟨changed, scope, printer⟩
    | .error d => .error d

/-- Gives a variable another value. -/
def assign (m : Machine) (name : String) (value : Value) (position : Position) :
    Except Diagnostic Machine :=
  m.changeScopes fun scopes scope => scopes.assign scope name value position

/-- What a call of a name with a number of arguments means here. -/
def lookupFunction (m : Machine) (name : String) (arity : Nat) (position : Position) :
    Except Diagnostic Callable :=
  m.scopes.lookupFunction m.scope name arity position

/-- Adds a variable to the scope in which the program stands. -/
def declare (m : Machine) (name : String) (value : Value) (position : Position) :
    Except Diagnostic Machine :=
  m.changeScopes fun scopes scope => scopes.defineVariable scope name value position

/-- Adds a variable to the root. -/
def declareInRoot (m : Machine) (name : String) (value : Value) (position : Position) :
    Except Diagnostic Machine :=
  m.changeScopes fun scopes _ => scopes.defineVariable Scopes.root name value position

/-- Adds something to call to the root. -/
def declareFunction (m : Machine) (name : String) (arity : Nat) (f : Callable)
    (position : Position) : Except Diagnostic Machine :=
  m.changeScopes fun scopes _ => scopes.defineFunction Scopes.root name arity f position

/-- Adds a variable that the host supplies. -/
def defineVariable (m : Machine) (name : String) (value : Value) : Except Diagnostic Machine :=
  m.declareInRoot name value .nowhere

/-- Adds a function that the host supplies. -/
def defineFunction (m : Machine) (name : String) (arity : Nat) (answer : Native) :
    Except Diagnostic Machine :=
  m.declareFunction name arity (.native answer) .nowhere

/-- Goes into a new scope nested in `parent`. -/
def enter (parent : Nat) : Machine → Machine
  | ⟨scopes, _, printer⟩ =>
    let fresh := scopes.fresh
    ⟨scopes.child parent, fresh, printer⟩

/-- Goes back to a scope and releases the one in the place `fresh`. -/
def leave (fresh back : Nat) : Machine → Machine
  | ⟨scopes, _, printer⟩ => ⟨scopes.release fresh, back, printer⟩

end Machine

/-- How a run ends. -/
inductive Outcome (α : Type) where
  /-- with a result -/
  | done (result : α) (machine : Machine)
  /-- with a diagnostic -/
  | failed (diagnostic : Diagnostic) (machine : Machine)
  /-- for lack of fuel -/
  | exhausted

/-- A piece of work on a machine. -/
def Run (α : Type) : Type := Machine → Outcome α

namespace Run

variable {α β : Type}

/-- Nothing to do but to give a result. -/
protected def pure (result : α) : Run α := fun m => .done result m

/-- One run, and one that goes on with its result. -/
protected def bind (first : Run α) (next : α → Run β) : Run β := fun m =>
  match first m with
  | .done result m => next result m
  | .failed d m => .failed d m
  | .exhausted => .exhausted

instance : Monad Run where
  pure := Run.pure
  bind := Run.bind

/-- Lack of fuel. -/
def exhausted : Run α := fun _ => .exhausted

/-- Fails. -/
def fail (fault : Fault) (position : Position) : Run α := fun m => .failed ⟨fault, position⟩ m

/-- Gives a result that may be a diagnostic. -/
def ofExcept (result : Except Diagnostic α) : Run α := fun m =>
  match result with
  | .ok result => .done result m
  | .error d => .failed d m

/-- Looks something up. -/
def look (f : Machine → Except Diagnostic α) : Run α := fun m => ofExcept (f m) m

/-- Changes the machine, unless there is a diagnostic. -/
def change (f : Machine → Except Diagnostic Machine) : Run Unit := fun m =>
  match f m with
  | .ok m => .done () m
  | .error d => .failed d m

/-- A run in a new scope nested in `parent`. -/
def inScope (parent : Nat) (inner : Run α) : Run α := fun m =>
  let fresh := m.scopes.fresh
  let back := m.scope
  match inner (m.enter parent) with
  | .done result last => .done result (last.leave fresh back)
  | .failed d last => .failed d (last.leave fresh back)
  | .exhausted => .exhausted

/-- A run in a new scope nested in the one in which the program stands. -/
def inBlock (inner : Run α) : Run α := fun m => inScope m.scope inner m

end Run

end TeachLang
