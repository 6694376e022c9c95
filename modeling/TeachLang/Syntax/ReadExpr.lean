import TeachLang.Syntax.Cursor
import TeachLang.Syntax.Power
import TeachLang.Decimal.Written

/-!
# Reading expressions

An expression is read as an operand and then operators with their right operands for as long as
these bind more tightly than the power at which the expression is read. The right operand of an
operator is read at the operator's own power, so operators of one power group to the left.

`Cursor.literal` reads the operands of one token; `Cursor.operand`, `Cursor.operators` and
`Cursor.arguments` call each other and `Cursor.expr` for the rest.
-/

namespace TeachLang

/-- A number may be written with signs of plus in front of it, which do not count. -/
def withoutPlus (text : String) : List Char := text.toList.dropWhile (· = '+')

/-- The constant that a token denotes, or what is wrong with it. -/
def Token.literal (token : Token) : Except Diagnostic Literal :=
  let start := token.span.start
  let malformed : Diagnostic := ⟨.unexpectedTokenDetailed token.value "malformed number", start⟩
  match token.kind with
  | .nilWord => .ok .nil
  | .trueWord => .ok (.boolean true)
  | .falseWord => .ok (.boolean false)
  | .integer =>
    match Text.integer? (withoutPlus token.value) with
    | some n => .ok (.integer n)
    | none => .error malformed
  | .decimal =>
    match Decimal.read? (String.ofList (withoutPlus token.value)) with
    | some d => .ok (.decimal d)
    | none => .error malformed
  | .character =>
    match token.value.toList with
    | c :: _ => .ok (.character c)
    | [] => .error ⟨.unterminatedLiteral, start⟩
  | .string => .ok (.string token.value)
  | _ => .error ⟨.unexpectedToken token.value, start⟩

namespace Cursor

/-- Takes one token and reads it as a constant. -/
def literal (c : Cursor) : Except Failure (Read c.remaining Expr) :=
  match c.take? with
  | none => c.fail c.unexpected
  | some ⟨token, next, shorter⟩ =>
    match token.literal with
    | .ok value => .ok ⟨.literal value none token.span, next, shorter⟩
    | .error diagnostic => next.fail diagnostic

mutual

/-- Reads an expression at a binding power. -/
def expr (power : Power) (c : Cursor) : Except Failure (Read c.remaining Expr) := do
  let ⟨left, next, h⟩ ← operand c
  let ⟨whole, next, h⟩ := (← operators power left next).orAfter h
  return ⟨whole, next, h⟩
termination_by 2 * c.remaining + 1

/-- Reads what can stand on the left of an operator: a constant, a variable, a call or a group. -/
def operand (c : Cursor) : Except Failure (Read c.remaining Expr) :=
  match c.take? with
  | none => c.fail (c.unexpectedFor "expected an expression")
  | some ⟨token, next, h⟩ =>
    match token.kind with
    | .identifier =>
      if next.kind = .openParen then do
        let ⟨args, next, h⟩ := (← arguments next).after h
        return ⟨.call token.value args none ⟨token.span.start, next.before⟩, next, h⟩
      else return ⟨.name token.value none token.span, next, h⟩
    | .openParen => do
      let ⟨inner, next, h⟩ := (← expr .default next).after h
      let ⟨_, next, h⟩ := (← next.expectFor .closeParen "expected `)` to close the group").after h
      return ⟨.group inner none ⟨token.span.start, next.before⟩, next, h⟩
    | kind =>
      if kind.startsOperand then c.literal
      else c.fail (c.unexpectedFor "expected an expression")
termination_by 2 * c.remaining

/-- Goes on behind an operand with the operators that bind more tightly than the given power. -/
def operators (power : Power) (left : Expr) (c : Cursor) :
    Except Failure (Read (c.remaining + 1) Expr) :=
  if power < c.kind.power then
    if c.kind = .dot then do
      let ⟨left, next, h⟩ ← member left c
      let ⟨whole, next, h⟩ := (← operators power left next).orAfter h
      return .loose ⟨whole, next, h⟩
    else if (Operator.ofKind? c.kind).isSome then do
      let ⟨left, next, h⟩ ← binary c.kind.power left c
      let ⟨whole, next, h⟩ := (← operators power left next).orAfter h
      return .loose ⟨whole, next, h⟩
    else c.fail c.unexpected
  else return .nothing left c
termination_by 2 * c.remaining + 1

/-- Reads an operator and its right operand, which is read at the given power. -/
def binary (power : Power) (left : Expr) (c : Cursor) : Except Failure (Read c.remaining Expr) :=
  match c.take? with
  | none => c.fail c.unexpected
  | some ⟨token, next, h⟩ =>
    match Operator.ofKind? token.kind with
    | none => next.fail c.unexpected
    | some operator => do
      let ⟨right, next, h⟩ := (← expr power next).after h
      return ⟨.binary operator left right none ⟨left.span.start, right.span.stop⟩, next, h⟩
termination_by 2 * c.remaining

/-- Reads a dot and the field or method behind it. -/
def member (receiver : Expr) (c : Cursor) : Except Failure (Read c.remaining Expr) :=
  match c.take? with
  | none => c.fail c.unexpected
  | some ⟨_, next, h⟩ => do
    let ⟨token, next, h⟩ :=
      (← next.expectFor .identifier "expected a field or method name after `.`").after h
    let start := receiver.span.start
    if next.kind = .openParen then do
      let ⟨args, next, h⟩ := (← arguments next).after h
      return ⟨.methodCall receiver token.value args none ⟨start, next.before⟩, next, h⟩
    else
      return ⟨.member receiver token.value none ⟨start, token.span.stop⟩, next, h⟩
termination_by 2 * c.remaining

/-- Reads the arguments of a call, with their parentheses. -/
def arguments (c : Cursor) : Except Failure (Read c.remaining (List Expr)) := do
  let ⟨_, next, h⟩ ← c.expect .openParen
  if next.kind = .closeParen then
    let ⟨_, next, h⟩ := (← next.expect .closeParen).after h
    return ⟨[], next, h⟩
  else
    let ⟨first, next, h⟩ := (← expr .default next).after h
    let ⟨others, next, h⟩ := (← moreArguments next).orAfter h
    let ⟨_, next, h⟩ :=
      (← next.expectFor .closeParen "expected `,` or `)` in argument list").after h
    return ⟨first :: others, next, h⟩
termination_by 2 * c.remaining

/-- Reads further arguments, each behind a comma. -/
def moreArguments (c : Cursor) : Except Failure (Read (c.remaining + 1) (List Expr)) :=
  if c.kind = .comma then do
    let ⟨_, next, h⟩ ← c.expect .comma
    let ⟨first, next, h⟩ := (← expr .default next).after h
    let ⟨others, next, h⟩ := (← moreArguments next).orAfter h
    return .loose ⟨first :: others, next, h⟩
  else return .nothing [] c
termination_by 2 * c.remaining

end

end Cursor

end TeachLang
