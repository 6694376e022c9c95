import TeachLang.Text.Quoted

/-!
# Faults

What can be wrong with a program, from its first character to its last step, as one type of
**causes**. The words come afterwards: `Fault.name`, `Fault.message` and `Fault.tip` give each
cause its name, its one-line message and the advice shown with it, and `Fault.phase` says which
part of the work it belongs to.
-/

namespace TeachLang

/-- The part of the work that a fault belongs to. -/
inductive Phase where
  /-- reading tokens and trees -/
  | reading
  /-- static checking and emission -/
  | checking
  /-- running a program -/
  | running
  deriving DecidableEq, Repr

/-- A cause of failure. -/
inductive Fault where
  /-- no token starts with this text -/
  | unrecognisedToken (token : String)
  /-- a token where the grammar has none -/
  | unexpectedToken (token : String)
  /-- a token where the grammar has none, with what was expected there -/
  | unexpectedTokenDetailed (token message : String)
  /-- a backslash before a character that makes no escape -/
  | invalidEscape (escape : Char)
  /-- a quote that opens no complete literal -/
  | unterminatedLiteral
  /-- a type name that is not registered -/
  | unknownType (type : String)
  /-- a name with no definition in reach -/
  | undefinedName (name : String)
  /-- a second definition of a name in one scope -/
  | duplicateDefinition (name : String)
  /-- a type that is not assignable to the required one -/
  | typeMismatch (expected received : String)
  /-- an operator between types that it is not defined for -/
  | invalidOperator (operator left right : String)
  /-- a number literal outside its type -/
  | literalOutOfRange (literal : String)
  /-- a program without its entry method -/
  | missingEntryPoint
  /-- a construct that needs a statement in its body -/
  | emptyBody (construct : String)
  /-- a declaration with neither type nor value -/
  | expectedExplicitValue (variableName : String)
  /-- a statement that is an expression but no call -/
  | invalidExpressionStatement
  /-- parentheses around something that is no binary expression -/
  | invalidGroup
  /-- an assignment to something that is neither a variable nor a field -/
  | unassignableReceiver
  /-- a division by zero -/
  | divisionByZero
  /-- a loop over a value that has no items -/
  | notIterable (received : String)
  /-- a value of a type that the operation cannot take -/
  | runtimeTypeMismatch (expected received : String)
  /-- a node that static checking has not filled in -/
  | unanalyzedNode
  deriving DecidableEq, Repr

namespace Fault

/-- The name under which a fault is reported. -/
def name : Fault → String
  | unrecognisedToken _ => "UnrecognisedToken"
  | unexpectedToken _ => "UnexpectedToken"
  | unexpectedTokenDetailed _ _ => "UnexpectedTokenDetailed"
  | invalidEscape _ => "InvalidEscape"
  | unterminatedLiteral => "UnterminatedLiteral"
  | unknownType _ => "UnknownType"
  | undefinedName _ => "UndefinedName"
  | duplicateDefinition _ => "DuplicateDefinition"
  | typeMismatch _ _ => "TypeMismatch"
  | invalidOperator _ _ _ => "InvalidOperator"
  | literalOutOfRange _ => "LiteralOutOfRange"
  | missingEntryPoint => "MissingEntryPoint"
  | emptyBody _ => "EmptyBody"
  | expectedExplicitValue _ => "ExpectedExplicitValue"
  | invalidExpressionStatement => "InvalidExpressionStatement"
  | invalidGroup => "InvalidGroup"
  | unassignableReceiver => "UnassignableReceiver"
  | divisionByZero => "DivisionByZero"
  | notIterable _ => "NotIterable"
  | runtimeTypeMismatch _ _ => "RuntimeTypeMismatch"
  | unanalyzedNode => "UnanalyzedNode"

/-- The phase a fault belongs to. Names and receivers are looked up both when a program is checked
and when it runs; their faults count as faults of checking. -/
def phase : Fault → Phase
  | unrecognisedToken _ | unexpectedToken _ | unexpectedTokenDetailed _ _ | invalidEscape _
  | unterminatedLiteral => .reading
  | divisionByZero | notIterable _ | runtimeTypeMismatch _ _ => .running
  | _ => .checking

open Text (quoted) in
/-- The one-line message of a fault. -/
def message : Fault → String
  | unrecognisedToken token => "unrecognised token: " ++ quoted token
  | unexpectedToken token => "unexpected token: " ++ quoted token
  | unexpectedTokenDetailed token message =>
    "unexpected token (" ++ quoted message ++ "): " ++ quoted token
  | invalidEscape escape => "invalid escape sequence: \\" ++ escape.toString
  | unterminatedLiteral => "unterminated literal"
  | unknownType type => "unknown type " ++ type ++ " found"
  | undefinedName name => quoted name ++ " is not defined"
  | duplicateDefinition name => quoted name ++ " is already defined"
  | typeMismatch expected received =>
    "types do not match: expected " ++ quoted expected ++ ", received " ++ quoted received
  | invalidOperator operator left right =>
    "invalid operator " ++ quoted operator ++ " for " ++ quoted left ++ " and " ++ quoted right
  | literalOutOfRange literal => "literal " ++ literal ++ " is out of range"
  | missingEntryPoint => "missing entry point: no method `main()` defined"
  | emptyBody construct => "empty body in " ++ construct
  | expectedExplicitValue variableName =>
    "expected explicit type or value for " ++ quoted variableName
  | invalidExpressionStatement => "expression statements must be function calls"
  | invalidGroup => "grouped expressions must contain a binary expression"
  | unassignableReceiver => "assignment receiver is not a variable or field"
  | divisionByZero => "division by zero"
  | notIterable received => "value of type " ++ quoted received ++ " is not iterable"
  | runtimeTypeMismatch expected received =>
    "runtime types do not match: expected " ++ quoted expected ++
      ", received " ++ quoted received
  | unanalyzedNode => "node has not been analyzed"

/-- The advice shown with a fault, if there is any. -/
def tip : Fault → Option String
  | unrecognisedToken _ => none
  | unexpectedToken token =>
    some ("Unexpected token: `" ++ token ++ "`, did you miss a semicolon?")
  | unexpectedTokenDetailed token message =>
    some ("Unexpected token: `" ++ token ++ "`, " ++ message)
  | invalidEscape escape =>
    some ("Invalid escape `\\" ++ escape.toString ++
      "`, expected one of \\b \\n \\r \\t \\' \\\" \\\\")
  | unterminatedLiteral => some "Literal is missing its closing quote"
  | unknownType type => some ("Unknown type `" ++ type ++ "` found")
  | undefinedName name => some ("`" ++ name ++ "` is not defined in this scope")
  | duplicateDefinition name => some ("`" ++ name ++ "` is already defined in this scope")
  | typeMismatch expected received =>
    some ("Expected type `" ++ expected ++ "`, received `" ++ received ++ "`")
  | invalidOperator operator left right =>
    some ("Operator `" ++ operator ++ "` cannot be applied to `" ++ left ++
      "` and `" ++ right ++ "`")
  | literalOutOfRange literal => some ("Literal `" ++ literal ++ "` does not fit in its type")
  | missingEntryPoint => some "Define a zero-argument method `main` returning Integer"
  | emptyBody construct => some ("The body of `" ++ construct ++ "` must not be empty")
  | expectedExplicitValue variableName =>
    some ("Expected a type or an initial value for `" ++ variableName ++ "`")
  | invalidExpressionStatement => some "Only function calls may be used as statements"
  | invalidGroup => some "Parentheses may only surround binary expressions"
  | unassignableReceiver => some "Only variables and fields can be assigned to"
  | divisionByZero => none
  | notIterable received => some ("`" ++ received ++ "` cannot be iterated over")
  | runtimeTypeMismatch expected received =>
    some ("Expected a `" ++ expected ++ "` value, received `" ++ received ++ "`")
  | unanalyzedNode => some "Run the analyzer before emitting code"

end Fault

end TeachLang
