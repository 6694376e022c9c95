import TeachLang.Typing
import TeachLang.Decimal.Written

/-!
# The types of expressions

`Expr.check` gives every node of an expression its type and resolves every name in it. The operands
come first, from left to right, but the arguments of a method before its receiver.

`Operator.result?` is the table of the operators: what type of result each has for two types of
operands, if it takes them.
-/

namespace TeachLang

/-! ## Constants -/

namespace Literal

/-- The whole numbers of the language are those of 32 bits. -/
def fitsInteger (n : Int) : Bool := -2147483648 ≤ n && n ≤ 2147483647

/-- The type of a constant, or the fault of a number outside its type. -/
def check (literal : Literal) (position : Position) : Except Diagnostic Ty :=
  match literal with
  | integer n =>
    if fitsInteger n then .ok .integer else .error ⟨.literalOutOfRange (toString n), position⟩
  | decimal d =>
    if d.fitsDouble then .ok .decimal else .error ⟨.literalOutOfRange d.write, position⟩
  | other => .ok other.ty

end Literal

/-! ## Operators -/

namespace Operator

/-- The type of the result of an operator, if it takes operands of the two types. -/
def result? (operator : Operator) (left right : Ty) : Option Ty :=
  let both := fun ty => left.same ty && right.same ty
  let either := fun ty => left.same ty || right.same ty
  match operator with
  | and | or => if both .boolean then some .boolean else none
  | less | lessEquals | greater | greaterEquals | equals | notEquals =>
    if Ty.isAssignable .comparable left && Ty.isAssignable .comparable right then some .boolean
    else none
  | plus =>
    if either .string then some .string
    else if both .integer then some .integer
    else if both .decimal then some .decimal
    else none
  | minus | multiply | divide =>
    if both .integer then some .integer
    else if either .decimal then some .decimal
    else none

/-- The type of the result of an operator, or the fault of not taking the operands. -/
def result (operator : Operator) (left right : Ty) (position : Position) :
    Except Diagnostic Ty :=
  match operator.result? left right with
  | some ty => .ok ty
  | none => .error ⟨.invalidOperator operator.symbol left.name right.name, position⟩

end Operator

/-! ## Expressions -/

/-- Whether arguments of the given types, each with its place, may be given for the parameters. -/
def requireArguments : List Ty → List (Position × Ty) → Except Diagnostic Unit
  | parameter :: parameters, (position, ty) :: arguments => do
    Ty.requireAssignable parameter ty position
    requireArguments parameters arguments
  | _, _ => .ok ()

namespace Expr

/-- The function that is called with arguments of the given types, if it takes them. -/
def calleeFor (callee : Except Diagnostic Signature) (arguments : List (Position × Ty)) :
    Except Diagnostic Signature := do
  let f ← callee
  requireArguments f.parameters arguments
  return f

mutual

/-- Checks an expression and finds its type. -/
def check (c : Checker) : Expr → Checked Expr Ty
  | literal value ty span => .fill (literal value · span) ty (value.check span.start)
  | group inner ty span =>
    if inner.isBinary then
      (check c inner).andThen (group · ty span) fun inner found =>
        .pass (group inner (some found) span) found
    else .fail (group inner ty span) .invalidGroup span.start
  | binary operator left right ty span =>
    (check c left).andThen (binary operator · right ty span) fun left a =>
    (check c right).andThen (binary operator left · ty span) fun right b =>
    .fill (binary operator left right · span) ty (operator.result a b span.start)
  | name n binding span =>
    (Checked.fill (name n · span) binding (c.lookupVariable n span.start)).map Variable.ty
  | member receiver n binding span =>
    (check c receiver).andThen (member · n binding span) fun receiver ty =>
    (Checked.fill (member receiver n · span) binding (ty.field n span.start)).map Variable.ty
  | call n arguments callee span =>
    (checkArguments c arguments).andThen (call n · callee span) fun arguments tys =>
    (Checked.fill (call n arguments · span) callee
      (calleeFor (c.lookupFunction n tys.length span.start) tys)).map Signature.result
  | methodCall receiver n arguments callee span =>
    (checkArguments c arguments).andThen (methodCall receiver n · callee span) fun arguments tys =>
    (check c receiver).andThen (methodCall · n arguments callee span) fun receiver ty =>
    (Checked.fill (methodCall receiver n arguments · span) callee
      (calleeFor (ty.method n tys.length span.start) tys)).map Signature.result

/-- Checks arguments from left to right and finds the type of each, with its place. -/
def checkArguments (c : Checker) : List Expr → Checked (List Expr) (List (Position × Ty))
  | [] => .pass [] []
  | argument :: arguments =>
    (check c argument).andThen (· :: arguments) fun argument ty =>
    (checkArguments c arguments).andThen (argument :: ·) fun arguments tys =>
    .pass (argument :: arguments) ((argument.span.start, ty) :: tys)

end

/-- Checks an expression where a value of a type is required. -/
def checkAs (c : Checker) (required : Ty) (e : Expr) : Checked Expr Ty :=
  (e.check c).require fun ty => Ty.requireAssignable required ty e.span.start

end Expr

end TeachLang
