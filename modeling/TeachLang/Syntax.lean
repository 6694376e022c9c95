import TeachLang.Decimal
import TeachLang.Token
import TeachLang.Ty

/-!
# Programs

The trees of programs. A **program** has fields and methods; the body of a method is a list of
**statements**, and these hold **expressions**.

A tree has two parts. Its shape and its spans come from the text and never change. Its **slots**
are empty at first; static checking fills them with the types, variables and functions that the
node stands for, and emission reads them.
-/

namespace TeachLang

/-- The constants of the language. -/
inductive Literal where
  /-- no value -/
  | nil
  /-- a truth value -/
  | boolean (value : Bool)
  /-- a whole number of any size -/
  | integer (value : Int)
  /-- a decimal number -/
  | decimal (value : Decimal)
  /-- one character -/
  | character (value : Char)
  /-- a text -/
  | string (value : String)
  deriving DecidableEq, Repr, Inhabited

/-- The type that every constant of a form has. -/
def Literal.ty : Literal → Ty
  | nil => .nil
  | boolean _ => .boolean
  | integer _ => .integer
  | decimal _ => .decimal
  | character _ => .character
  | string _ => .string

/-- The binary operators. -/
inductive Operator where
  /-- both hold -/
  | and
  /-- at least one holds -/
  | or
  /-- comes before -/
  | less
  /-- comes before or has the same place -/
  | lessEquals
  /-- comes behind -/
  | greater
  /-- comes behind or has the same place -/
  | greaterEquals
  /-- is the same value -/
  | equals
  /-- is another value -/
  | notEquals
  /-- sum, or texts put together -/
  | plus
  /-- difference -/
  | minus
  /-- product -/
  | multiply
  /-- quotient -/
  | divide
  deriving DecidableEq, Repr, Inhabited

namespace Operator

/-- The text of an operator in programs. -/
def symbol : Operator → String
  | and => "AND"
  | or => "OR"
  | less => "<"
  | lessEquals => "<="
  | greater => ">"
  | greaterEquals => ">="
  | equals => "=="
  | notEquals => "!="
  | plus => "+"
  | minus => "-"
  | multiply => "*"
  | divide => "/"

/-- The operator that a token of a kind stands for. -/
def ofKind? : Kind → Option Operator
  | .andWord => some and
  | .orWord => some or
  | .less => some less
  | .lessEquals => some lessEquals
  | .greater => some greater
  | .greaterEquals => some greaterEquals
  | .equals => some equals
  | .notEquals => some notEquals
  | .plus => some plus
  | .dash => some minus
  | .star => some multiply
  | .slash => some divide
  | _ => none

/-- Whether an operator compares its operands. -/
def isComparison : Operator → Bool
  | less | lessEquals | greater | greaterEquals | equals | notEquals => true
  | _ => false

end Operator

/-- Expressions. -/
inductive Expr where
  /-- a constant -/
  | literal (value : Literal) (ty : Option Ty) (span : Span)
  /-- an expression in parentheses -/
  | group (inner : Expr) (ty : Option Ty) (span : Span)
  /-- an operator between two operands -/
  | binary (operator : Operator) (left right : Expr) (ty : Option Ty) (span : Span)
  /-- a variable -/
  | name (name : String) (binding : Option Variable) (span : Span)
  /-- a field of a receiver -/
  | member (receiver : Expr) (name : String) (binding : Option Variable) (span : Span)
  /-- a call of a function -/
  | call (name : String) (arguments : List Expr) (callee : Option Signature) (span : Span)
  /-- a call of a method of a receiver -/
  | methodCall (receiver : Expr) (name : String) (arguments : List Expr)
      (callee : Option Signature) (span : Span)

namespace Expr

instance : Inhabited Expr := ⟨literal .nil none default⟩

/-- Where an expression stands. -/
def span : Expr → Span
  | literal _ _ s | group _ _ s | binary _ _ _ _ s | name _ _ s | member _ _ _ s | call _ _ _ s
  | methodCall _ _ _ _ s => s

/-- The type that the slot of an expression gives it, if it is filled. -/
def ty? : Expr → Option Ty
  | literal _ ty _ | group _ ty _ | binary _ _ _ ty _ => ty
  | name _ binding _ | member _ _ binding _ => binding.map Variable.ty
  | call _ _ callee _ | methodCall _ _ _ callee _ => callee.map Signature.result

/-- Whether an expression is an operator between two operands. -/
def isBinary : Expr → Bool
  | binary .. => true
  | _ => false

/-- Whether an expression designates a variable or a field. -/
def isAccess : Expr → Bool
  | name .. | member .. => true
  | _ => false

/-- Whether an expression is a call. -/
def isCall : Expr → Bool
  | call .. | methodCall .. => true
  | _ => false

end Expr

/-- Statements. -/
inductive Stmt where
  /-- an expression evaluated for its effects -/
  | expression (expression : Expr) (span : Span)
  /-- `LET name : Type = value;`, where type and value may be left out -/
  | declaration (name : String) (typeName : Option String) (value : Option Expr)
      (binding : Option Variable) (span : Span)
  /-- `target = value;` -/
  | assignment (target value : Expr) (span : Span)
  /-- `IF condition DO thenBody ELSE elseBody END` -/
  | conditional (condition : Expr) (thenBody elseBody : List Stmt) (span : Span)
  /-- `FOR name IN items DO body END` -/
  | forEach (name : String) (items : Expr) (body : List Stmt) (span : Span)
  /-- `WHILE condition DO body END` -/
  | whileLoop (condition : Expr) (body : List Stmt) (span : Span)
  /-- `RETURN value;` -/
  | returns (value : Expr) (span : Span)

namespace Stmt

instance : Inhabited Stmt := ⟨returns default default⟩

/-- Where a statement stands. -/
def span : Stmt → Span
  | expression _ s | declaration _ _ _ _ s | assignment _ _ s | conditional _ _ _ s
  | forEach _ _ _ s | whileLoop _ _ s | returns _ s => s

end Stmt

/-- A variable of the whole program, `LET name : typeName = value;`, where the value may be left
out. -/
structure Field where
  /-- its name -/
  name : String
  /-- the name of its type -/
  typeName : String
  /-- its first value -/
  value : Option Expr
  /-- slot for the variable -/
  binding : Option Variable
  /-- where it stands -/
  span : Span

/-- A function of the program,
`DEF name(parameter: Type, ...): resultTypeName DO body END`. -/
structure Method where
  /-- its name -/
  name : String
  /-- names of its parameters, each with the name of its type -/
  parameters : List (String × String)
  /-- the name of the type of its result; without one the result is nothing -/
  resultTypeName : Option String
  /-- its statements -/
  body : List Stmt
  /-- slot for the function -/
  callee : Option Signature
  /-- where it stands -/
  span : Span

/-- A whole program. -/
structure Program where
  /-- its variables, in order -/
  fields : List Field
  /-- its functions, in order -/
  methods : List Method
  /-- where it stands -/
  span : Span

/-- The name of the method that a program starts with. -/
def Program.entryName : String := "main"

end TeachLang
