import TeachLang.Syntax
import TeachLang.Decimal.Written

/-!
# Emitted Java

A checked program can be emitted as one Java class. `Expr.java` emits an expression as text,
`Stmt.java` a statement as lines, and `Program.java` the whole class.

Emission only reads the slots that static checking fills, and stops at the first that is empty.
Operands are not put into parentheses; a program groups its operators by itself, and its groups are
kept.
-/

namespace TeachLang

namespace Java

/-- A character between the quotes of a Java literal. -/
def escape : Char → List Char
  | '\\' => ['\\', '\\']
  | '"' => ['\\', '"']
  | '\'' => ['\\', '\'']
  | '\n' => ['\\', 'n']
  | '\r' => ['\\', 'r']
  | '\t' => ['\\', 't']
  | '\x08' => ['\\', 'b']
  | c => [c]

/-- A text between quotes. -/
def enclosed (quote : Char) (text : List Char) : String :=
  String.ofList (quote :: text.flatMap escape ++ [quote])

/-- A constant. -/
def literal : Literal → String
  | .nil => "null"
  | .boolean true => "true"
  | .boolean false => "false"
  | .integer n => toString n
  | .decimal d => d.write
  | .character c => enclosed '\'' [c]
  | .string s => enclosed '"' s.toList

/-- An operator. -/
def operator : Operator → String
  | .and => "&&"
  | .or => "||"
  | other => other.symbol

/-- What a slot holds, or the fault of a tree that was not checked. -/
def filled {α : Type} (slot : Option α) (span : Span) : Except Diagnostic α :=
  match slot with
  | some held => .ok held
  | none => .error ⟨.unanalyzedNode, span.start⟩

end Java

/-! ## Expressions -/

namespace Expr

mutual

/-- Emits an expression. -/
def java : Expr → Except Diagnostic String
  | literal value ty span => do
    let _ ← Java.filled ty span
    return Java.literal value
  | group inner ty span => do
    let _ ← Java.filled ty span
    return "(" ++ (← java inner) ++ ")"
  | binary operator left right ty span => do
    let _ ← Java.filled ty span
    let left ← java left
    let right ← java right
    return left ++ " " ++ Java.operator operator ++ " " ++ right
  | name _ binding span => do return (← Java.filled binding span).javaName
  | member receiver _ binding span => do
    let field ← Java.filled binding span
    return (← java receiver) ++ "." ++ field.javaName
  | call _ arguments callee span => do
    let f ← Java.filled callee span
    return f.javaName ++ "(" ++ ", ".intercalate (← javaAll arguments) ++ ")"
  | methodCall receiver _ arguments callee span => do
    let f ← Java.filled callee span
    let receiver ← java receiver
    return receiver ++ "." ++ f.javaName ++ "(" ++ ", ".intercalate (← javaAll arguments) ++ ")"

/-- Emits expressions in their order. -/
def javaAll : List Expr → Except Diagnostic (List String)
  | [] => return []
  | e :: es => do
    let text ← java e
    let texts ← javaAll es
    return text :: texts

end

end Expr

/-! ## Lines -/

namespace Java

/-- A line of Java. -/
structure Line where
  /-- number of braces that it stands in -/
  depth : Nat
  /-- the line without its indentation -/
  text : String
  deriving DecidableEq, Repr

/-- The indentation of a line. -/
def indent (depth : Nat) : String := String.ofList (List.replicate (4 * depth) ' ')

/-- A line with its indentation, which an empty line does not have. -/
def Line.render (line : Line) : String :=
  if line.text.isEmpty then "\n" else indent line.depth ++ line.text ++ "\n"

/-- An empty line. -/
def blank : Line := ⟨0, ""⟩

/-- Lines in braces, with a text before the opening one. Without lines both braces stand in one
line. -/
def braces (depth : Nat) (opening : String) (body : List Line) : List Line :=
  if body.isEmpty then [⟨depth, opening ++ "\x7b\x7d"⟩]
  else ⟨depth, opening ++ "\x7b"⟩ :: body ++ [⟨depth, "\x7d"⟩]

/-- Lines that go on where the last of the earlier ones ends. -/
def continued : List Line → List Line → List Line
  | [], lines => lines
  | [line], [] => [line]
  | [line], next :: lines => ⟨line.depth, line.text ++ next.text⟩ :: lines
  | line :: others, lines => line :: continued others lines

/-- The declaration of a variable, with its value if it has one. -/
def declaration (v : Variable) (value : Option Expr) : Except Diagnostic String := do
  let value ← value.mapM Expr.java
  return v.ty.javaName ++ " " ++ v.javaName ++ value.elim "" (" = " ++ ·) ++ ";"

end Java

/-! ## Statements -/

namespace Stmt

mutual

/-- Emits a statement that stands in so many braces. -/
def java (depth : Nat) : Stmt → Except Diagnostic (List Java.Line)
  | expression e _ => do return [⟨depth, (← e.java) ++ ";"⟩]
  | declaration _ _ value binding span => do
    return [⟨depth, ← Java.declaration (← Java.filled binding span) value⟩]
  | assignment target value _ => do
    let target ← target.java
    return [⟨depth, target ++ " = " ++ (← value.java) ++ ";"⟩]
  | conditional condition thenBody elseBody _ => do
    let condition ← condition.java
    let thenLines ← javaAll (depth + 1) thenBody
    let elseLines ← javaAll (depth + 1) elseBody
    let first := Java.braces depth ("if (" ++ condition ++ ") ") thenLines
    return if elseLines.isEmpty then first
      else Java.continued first (Java.braces depth " else " elseLines)
  | forEach name items body _ => do
    let items ← items.java
    return Java.braces depth ("for (int " ++ name ++ " : " ++ items ++ ") ")
      (← javaAll (depth + 1) body)
  | whileLoop condition body _ => do
    let condition ← condition.java
    return Java.braces depth ("while (" ++ condition ++ ") ") (← javaAll (depth + 1) body)
  | returns value _ => do return [⟨depth, "return " ++ (← value.java) ++ ";"⟩]

/-- Emits statements in their order. -/
def javaAll (depth : Nat) : List Stmt → Except Diagnostic (List Java.Line)
  | [] => return []
  | stmt :: stmts => do
    let first ← java depth stmt
    return first ++ (← javaAll depth stmts)

end

end Stmt

/-! ## Programs -/

/-- Emits a field of the class. -/
def Field.java (f : Field) : Except Diagnostic Java.Line := do
  return ⟨1, ← Java.declaration (← Java.filled f.binding f.span) f.value⟩

/-- Emits a parameter. -/
def Java.parameter (ty : Ty) (parameter : String × String) : String :=
  ty.javaName ++ " " ++ parameter.1

/-- Emits a method of the class. -/
def Method.java (m : Method) : Except Diagnostic (List Java.Line) := do
  let f ← Java.filled m.callee m.span
  let parameters := f.parameters.zipWith Java.parameter m.parameters
  return Java.braces 1
    (f.result.javaName ++ " " ++ f.javaName ++ "(" ++ ", ".intercalate parameters ++ ") ")
    (← Stmt.javaAll 2 m.body)

namespace Program

/-- The lines with which Java starts the class: they call the entry method of the program. -/
def javaStart : List Java.Line :=
  Java.braces 1 "public static void main(String[] args) " [⟨2, "System.exit(new Main().main());"⟩]

/-- The lines of the class that a program is emitted as. -/
def javaLines (p : Program) : Except Diagnostic (List Java.Line) := do
  let fields ← p.fields.mapM Field.java
  let methods ← p.methods.mapM Method.java
  let fieldLines := if fields.isEmpty then [] else fields ++ [Java.blank]
  return ⟨0, "public class Main \x7b"⟩ :: Java.blank :: fieldLines ++ javaStart ++ [Java.blank] ++
    methods.flatMap (· ++ [Java.blank]) ++ [⟨0, "\x7d"⟩]

/-- Emits a program as a Java class. -/
def java (p : Program) : Except Diagnostic String := do
  return String.join ((← p.javaLines).map Java.Line.render)

end Program

end TeachLang
