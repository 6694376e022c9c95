import TeachLang.Run

/-!
# Evaluating expressions

`Expr.evaluate` finds the value of an expression. Names are looked up as the program runs; the slots
of the tree are not used. The left operand comes before the right one, which `AND` and `OR` do not
evaluate if the left one decides; a receiver comes before the arguments.

Calls of functions are left open: evaluation is given a `Caller`, which carries them out.
-/

namespace TeachLang

/-- Carries out calls of functions, given the name, the arguments and the place of the call. -/
abbrev Caller := String → List Value → Position → Run Value

namespace Expr

variable (host : Host) (caller : Caller)

/-- The value of an operator, given its left operand and how to find the right one. -/
def evaluateBinary (operator : Operator) (left : Value) (right : Run Value) (position : Position) :
    Run Value :=
  match operator with
  | .and => do
    if ← .ofExcept (left.truth position) then
      return .boolean (← .ofExcept ((← right).truth position))
    else return .boolean false
  | .or => do
    if ← .ofExcept (left.truth position) then return .boolean true
    else return .boolean (← .ofExcept ((← right).truth position))
  | operator => do .ofExcept (Value.apply operator left (← right) position)

mutual

/-- Evaluates an expression. -/
def evaluate : Expr → Run Value
  | literal value _ _ => return .ofLiteral value
  | group inner _ _ => evaluate inner
  | binary operator left right _ span => do
    evaluateBinary operator (← evaluate left) (evaluate right) span.start
  | name n _ span => .look (·.lookupVariable n span.start)
  | member receiver n _ span => do .ofExcept ((← evaluate receiver).field n span.start)
  | call n arguments _ span => do caller n (← evaluateAll arguments) span.start
  | methodCall receiver n arguments _ span => do
    let receiver ← evaluate receiver
    let arguments ← evaluateAll arguments
    .ofExcept (receiver.callMethod host n arguments span.start)

/-- Evaluates expressions from left to right. -/
def evaluateAll : List Expr → Run (List Value)
  | [] => return []
  | e :: es => do
    let value ← evaluate e
    let values ← evaluateAll es
    return value :: values

end

/-- Evaluates a condition. -/
def evaluateTruth (condition : Expr) : Run Bool := do
  .ofExcept ((← condition.evaluate host caller).truth condition.span.start)

/-- Evaluates what a loop runs over. -/
def evaluateItems (e : Expr) : Run (List Value) := do
  match ← e.evaluate host caller with
  | .iterable _ items => return items
  | value => Run.fail (.notIterable value.ty.name) e.span.start

end Expr

/-! ## Places -/

/-- Something that can be assigned to: a variable, or a part of one. -/
structure Place where
  /-- the name of the variable -/
  name : String
  /-- where the variable is written -/
  position : Position
  /-- the way from the variable to the part -/
  path : Value.Path

namespace Place

/-- A field of a place. -/
def field (place : Place) (name : String) (position : Position) : Place :=
  { place with path := place.path ++ [(name, position)] }

/-- Changes the value of a place. The rest of its variable stays as it is. -/
def change (place : Place) (f : Value → Except Diagnostic Value) : Run Unit :=
  .change fun m => do
    let value ← m.lookupVariable place.name place.position
    m.assign place.name (← Value.change f place.path value) place.position

end Place

namespace Expr

/-- The place that an expression designates, if it is a variable or fields of one. -/
def place? : Expr → Option Place
  | name n _ span => some ⟨n, span.start, []⟩
  | member receiver n _ span => receiver.place?.map fun place => place.field n span.start
  | _ => none

/-- Assigns to the target with the value of an expression, which is evaluated first. A field of what
is no place is looked for, but what would be changed is gone at once. -/
def assign (host : Host) (caller : Caller) (target e : Expr) : Run Unit :=
  match target with
  | name n _ span => do
    let value ← e.evaluate host caller
    .change (·.assign n value span.start)
  | member receiver n _ span => do
    let value ← e.evaluate host caller
    match receiver.place? with
    | some place => place.change (·.setField n value span.start)
    | none =>
      let temporary ← receiver.evaluate host caller
      let _ ← Run.ofExcept (temporary.setField n value span.start)
  | other => .fail .unassignableReceiver other.span.start

end Expr

end TeachLang
