import TeachLang.Typing.Stmt

/-!
# Checking programs

`Program.check` checks the fields of a program in their order, then its methods in their order, and
at last that the program can be started. A field or method sees those before it, and a method
sees itself.
-/

namespace TeachLang

namespace Checker

/-- A scope with the parameters of a method, which all have the place of the method. -/
def declareAll (c : Checker) (position : Position) : List Variable → Except Diagnostic Checker
  | [] => .ok c
  | v :: vs => do (← c.declare v position).declareAll position vs

/-- The signature that a method declares. -/
def signature (c : Checker) (m : Method) : Except Diagnostic Signature := do
  let parameters ← m.parameters.mapM fun parameter => c.resolveTy parameter.2 m.span.start
  let result ← m.resultTypeName.mapM fun name => c.resolveTy name m.span.start
  return ⟨m.name, m.name, parameters, result.getD .nil⟩

end Checker

/-- Checks a field. -/
def Field.check (c : Checker) (f : Field) : Checker × Checked Field Unit :=
  c.checkVariable f.name (some f.typeName) f.value f.binding f.span.start fun value binding =>
    { f with value := value, binding := binding }

namespace Method

/-- The variables that the parameters of a method with the given signature are. -/
def parameterVariables (m : Method) (f : Signature) : List Variable :=
  m.parameters.zipWith (fun parameter ty => .plain parameter.1 ty) f.parameters

/-- Checks the body of a method with the given signature. -/
def checkBody (c : Checker) (m : Method) (f : Signature) : Checked Method Unit :=
  match c.enter.declareAll m.span.start (m.parameterVariables f) with
  | .error d => ⟨m, .error d⟩
  | .ok inner => (Stmt.checkAll inner m.body).2.within ({ m with body := · })

/-- Checks a method. Its signature is declared before its body is checked, and stays declared
should the body be faulty. -/
def check (c : Checker) (m : Method) : Checker × Checked Method Unit :=
  match c.signature m with
  | .error d => (c, ⟨m, .error d⟩)
  | .ok f =>
    match c.declareFunction f m.span.start with
    | .error d => (c, ⟨m, .error d⟩)
    | .ok next => (next, checkBody next { m with callee := some f } f)

end Method

namespace Program

/-- Checks items in their order, up to the first that is faulty. -/
def checkEach {T : Type} (check : Checker → T → Checker × Checked T Unit) (c : Checker) :
    List T → Checker × Checked (List T) Unit
  | [] => (c, .pass [] ())
  | item :: items =>
    let (next, first) := check c item
    match first.verdict with
    | .error d => (next, ⟨first.tree :: items, .error d⟩)
    | .ok _ =>
      let (last, others) := checkEach check next items
      (last, others.within (first.tree :: ·))

/-- Whether a program can start with a method. -/
def isEntry (m : Method) : Bool := m.name == entryName && m.parameters.isEmpty

/-- Where a program starts: its first method that is fit for it, or else the program itself. -/
def entryPosition (p : Program) : Position :=
  match p.methods.find? isEntry with
  | some m => m.span.start
  | none => p.span.start

/-- There must be a function to start with, and its result must be a whole number. -/
def checkEntry (c : Checker) (p : Program) : Except Diagnostic Unit :=
  match c.lookupFunction entryName 0 p.span.stop with
  | .error _ => .error ⟨.missingEntryPoint, p.span.stop⟩
  | .ok f => Ty.requireAssignable .integer f.result p.entryPosition

/-- Checks a program. -/
def check (c : Checker) (p : Program) : Checker × Checked Program Unit :=
  let (c, fields) := checkEach Field.check c p.fields
  match fields.verdict with
  | .error d => (c, ⟨{ p with fields := fields.tree }, .error d⟩)
  | .ok _ =>
    let (c, methods) := checkEach Method.check c p.methods
    let checked := { p with fields := fields.tree, methods := methods.tree }
    match methods.verdict with
    | .error d => (c, ⟨checked, .error d⟩)
    | .ok _ => (c, ⟨checked, checkEntry c p⟩)

end Program

end TeachLang
