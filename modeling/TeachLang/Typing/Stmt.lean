import TeachLang.Typing.Expr

/-!
# Checking statements

`Stmt.check` checks one statement and `Stmt.checkAll` a list of them, in which each statement sees
what those before it declare. Both give back the checker for what comes next. Only a declaration
changes it: a block is checked in a scope of its own, and what the block declares is forgotten at
its end.
-/

namespace TeachLang

/-- Checks the value that a variable starts with, if it has one, and finds its type. -/
def Checker.checkValue (c : Checker) : Option Expr → Checked (Option Expr) (Option (Position × Ty))
  | none => .pass none none
  | some e => ((e.check c).map fun ty => some (e.span.start, ty)).within some

/-- The type of a variable with a declared type and a value of some type, where only one of the
two may be missing. -/
def Checker.variableTy (name : String) (declared : Option Ty) (value : Option (Position × Ty))
    (position : Position) : Except Diagnostic Ty :=
  match declared, value with
  | some ty, some (place, found) => do
    Ty.requireAssignable ty found place
    return ty
  | some ty, none => .ok ty
  | none, some (_, found) => .ok found
  | none, none => .error ⟨.expectedExplicitValue name, position⟩

/-- Checks the declaration of a variable, given what it looks like with a checked value and with
the slot for the variable. -/
def Checker.checkVariable {T : Type} (c : Checker) (name : String) (typeName : Option String)
    (value : Option Expr) (binding : Option Variable) (position : Position)
    (node : Option Expr → Option Variable → T) : Checker × Checked T Unit :=
  match typeName.mapM (c.resolveTy · position) with
  | .error d => (c, ⟨node value binding, .error d⟩)
  | .ok declared =>
    let checked := c.checkValue value
    match checked.verdict with
    | .error d => (c, ⟨node checked.tree binding, .error d⟩)
    | .ok found =>
      match variableTy name declared found position with
      | .error d => (c, ⟨node checked.tree binding, .error d⟩)
      | .ok ty =>
        match c.declare (.plain name ty) position with
        | .error d => (c, ⟨node checked.tree binding, .error d⟩)
        | .ok next => (next, .pass (node checked.tree (some (.plain name ty))) ())

namespace Stmt

mutual

/-- Checks a statement. -/
def check (c : Checker) : Stmt → Checker × Checked Stmt Unit
  | expression e span =>
    if e.isCall then (c, ((e.check c).map fun _ => ()).within (expression · span))
    else (c, .fail (expression e span) .invalidExpressionStatement span.start)
  | declaration name typeName value binding span =>
    c.checkVariable name typeName value binding span.start (declaration name typeName · · span)
  | assignment target value span =>
    if target.isAccess then
      (c, (target.check c).andThen (assignment · value span) fun target ty =>
        ((value.checkAs c ty).map fun _ => ()).within (assignment target · span))
    else (c, .fail (assignment target value span) .unassignableReceiver target.span.start)
  | conditional condition thenBody elseBody span =>
    (c, (condition.checkAs c .boolean).andThen (conditional · thenBody elseBody span)
      fun condition _ =>
        if thenBody.isEmpty then
          .fail (conditional condition thenBody elseBody span) (.emptyBody "IF") span.start
        else
          (checkAll c.enter thenBody).2.andThen (conditional condition · elseBody span)
            fun thenBody _ =>
              (checkAll c.enter elseBody).2.within (conditional condition thenBody · span))
  | forEach name items body span =>
    (c, (items.checkAs c .integerIterable).andThen (forEach name · body span) fun items _ =>
      if body.isEmpty then .fail (forEach name items body span) (.emptyBody "FOR") span.start
      else
        match c.enter.declare (.plain name .integer) span.start with
        | .error d => ⟨forEach name items body span, .error d⟩
        | .ok inner => (checkAll inner body).2.within (forEach name items · span))
  | whileLoop condition body span =>
    (c, (condition.checkAs c .boolean).andThen (whileLoop · body span) fun condition _ =>
      (checkAll c.enter body).2.within (whileLoop condition · span))
  | returns value span => (c, ((value.check c).map fun _ => ()).within (returns · span))

/-- Checks statements in their order, up to the first that is faulty. -/
def checkAll (c : Checker) : List Stmt → Checker × Checked (List Stmt) Unit
  | [] => (c, .pass [] ())
  | stmt :: stmts =>
    let (next, first) := check c stmt
    match first.verdict with
    | .error d => (next, ⟨first.tree :: stmts, .error d⟩)
    | .ok _ =>
      let (last, others) := checkAll next stmts
      (last, others.within (first.tree :: ·))

end

end Stmt

end TeachLang
