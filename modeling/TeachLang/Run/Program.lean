import TeachLang.Run.Stmt

/-!
# Running programs

A program is run by defining its fields and methods in the root and calling its entry method. A
call runs the body of the method in a scope of its own, nested in the scope in which the method was
defined, so that a method sees nothing of its caller.

`Machine.call` and the other runs of this module are given fuel, which bounds how deep calls are
nested and how many rounds a `WHILE` loop has. Fuel is for the sake of totality: a run that is not
exhausted comes to the same end with more of it.
-/

namespace TeachLang

namespace Run

/-- Declares the parameters of a method with their values. -/
def declareParameters (position : Position) : List (String × String) → List Value → Run Unit
  | parameter :: parameters, value :: values => do
    Run.change (·.declare parameter.1 value position)
    declareParameters position parameters values
  | _, _ => Run.pure ()

/-- The result of a method: what it returned, or nothing. -/
def flowResult : Flow → Value
  | .returned value => value
  | .next => .nil

/-- Prints values, a line for each. -/
def print (values : List Value) : Run Value := fun m =>
  .done .nil { m with
    printer := values.foldl (fun printer value => printer.printLine value.text) m.printer }

/-- Calls what a name with so many arguments means where the program stands. -/
def call (host : Host) : Nat → Caller
  | 0, _, _, _ => .exhausted
  | fuel + 1, name, arguments, position => do
    match ← .look (·.lookupFunction name arguments.length position) with
    | .print => print arguments
    | .native answer => .ofExcept (answer arguments)
    | .method m scope =>
      let flow ← inScope scope do
        declareParameters m.span.start m.parameters arguments
        Stmt.executeAll host (call host fuel) fuel m.body
      return flowResult flow

/-- Evaluates an expression. -/
def evaluate (host : Host) (fuel : Nat) (e : Expr) : Run Value :=
  e.evaluate host (call host fuel)

/-- Executes statements. -/
def execute (host : Host) (fuel : Nat) (stmts : List Stmt) : Run Flow :=
  Stmt.executeAll host (call host fuel) fuel stmts

/-- Defines the fields of a program, each with its value if it has one. -/
def defineFields (host : Host) (fuel : Nat) : List Field → Run Unit
  | [] => Run.pure ()
  | field :: fields => do
    let value ← field.value.elim (Run.pure .nil) (evaluate host fuel)
    Run.change (·.declareInRoot field.name value field.span.start)
    defineFields host fuel fields

/-- Defines the methods of a program. -/
def defineMethods : List Method → Run Unit
  | [] => Run.pure ()
  | m :: ms => do
    Run.change (·.declareFunction m.name m.parameters.length (.method m Scopes.root) m.span.start)
    defineMethods ms

/-- Runs a program and gives the result of its entry method. -/
def program (host : Host) (fuel : Nat) (p : Program) : Run Value := do
  defineFields host fuel p.fields
  defineMethods p.methods
  call host fuel Program.entryName [] p.span.stop

end Run

end TeachLang
