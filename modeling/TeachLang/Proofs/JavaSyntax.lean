import TeachLang.Java
import TeachLang.Token.Scan

/-!
# Expressions as Java reads them

What Java makes of the text of an expression, as far as emitted expressions go: names, constants,
members, calls, parentheses and the binary operators. A text is cut into **lexemes**, and these are
read from left to right into a **tree**.

* `power` is Java's own table of its operators. An operator that is as strong as the next one or
  stronger takes its operands first, so operators of one power group to the left.
* `atOperand` and `behindOperand` read lexemes where an operand has to stand and behind one.
  Operands that wait for what stands on the right of their operator are **pending**, and what waited
  outside of open parentheses is kept in **frames**.
-/

namespace TeachLang.Java

/-! ## Lexemes -/

/-- The smallest parts of a text. -/
inductive Lexeme where
  /-- a name, or a constant that is written like one -/
  | word (text : String)
  /-- a number without a sign -/
  | number (text : String)
  /-- a literal between quotes, with them -/
  | quoted (text : String)
  /-- an operator between two operands, or the sign of a number -/
  | sign (operator : Operator)
  /-- `(` -/
  | openParen
  /-- `)` -/
  | closeParen
  /-- `,` -/
  | comma
  /-- `.` -/
  | dot
  deriving DecidableEq, Repr

/-- How the operators are written, the longer ones first. -/
def signs : List (List Char × Operator) :=
  [(['<', '='], .lessEquals), (['>', '='], .greaterEquals), (['=', '='], .equals),
    (['!', '='], .notEquals), (['&', '&'], .and), (['|', '|'], .or), (['<'], .less),
    (['>'], .greater), (['+'], .plus), (['-'], .minus), (['*'], .multiply), (['/'], .divide)]

/-- The operator at the front of a text, and how it is written. -/
def sign? (cs : List Char) : Option (List Char × Operator) :=
  signs.find? fun sign => sign.1.isPrefixOf cs

/-- The characters that a name can begin with. -/
def startsName (c : Char) : Bool := c.isAlpha || c == '_' || c == '$'

/-- The characters that a name can go on with. -/
def continuesName (c : Char) : Bool := c.isAlphanum || c == '_' || c == '$'

/-- The exponent at the front of a text, if there is one. -/
def exponent : List Char → List Char
  | mark :: cs =>
    let sign := cs.take 1 |>.filter fun c => c == '+' || c == '-'
    if mark = 'e' ∨ mark = 'E' then
      mark :: sign ++ (cs.drop sign.length).takeWhile Char.isDigit
    else []
  | [] => []

/-- What a number at the front of a text goes on with: digits, a point and more digits, an
exponent. -/
def numberText (cs : List Char) : List Char :=
  let mantissa := Token.numberText cs
  mantissa ++ exponent (cs.drop mantissa.length)

/-- The lexeme at the front of a text that begins with `c` and goes on with `cs`, and the number of
characters that it has behind `c`. -/
def front (c : Char) (cs : List Char) : Option (Lexeme × Nat) :=
  if startsName c then
    let more := cs.takeWhile continuesName
    some (.word (String.ofList (c :: more)), more.length)
  else if c.isDigit then
    some (.number (String.ofList (c :: numberText cs)), (numberText cs).length)
  else if c = '\'' ∨ c = '"' then
    (Token.rawBody c cs).map fun body =>
      (.quoted (String.ofList (c :: body ++ [c])), body.length + 1)
  else if c = '(' then some (.openParen, 0)
  else if c = ')' then some (.closeParen, 0)
  else if c = ',' then some (.comma, 0)
  else if c = '.' then some (.dot, 0)
  else (sign? (c :: cs)).map fun sign => (.sign sign.2, sign.1.length - 1)

/-- The lexemes of a text, if it is made of lexemes and blanks. -/
def lexemes : List Char → Option (List Lexeme)
  | [] => some []
  | c :: cs =>
    if c.isWhitespace then lexemes cs
    else match front c cs with
      | some (lexeme, more) => (lexemes (cs.drop more)).map (lexeme :: ·)
      | none => none
termination_by cs => cs.length
decreasing_by all_goals simp only [List.length_drop, List.length_cons]; omega

/-! ## Trees -/

/-- Expressions of Java. -/
inductive Tree where
  /-- a name, or a constant that is written like one -/
  | name (text : String)
  /-- any other constant -/
  | constant (text : String)
  /-- a member of what stands before a point -/
  | member (receiver : Tree) (name : String)
  /-- a call of what stands before parentheses -/
  | call (callee : Tree) (arguments : List Tree)
  /-- an expression in parentheses -/
  | group (inner : Tree)
  /-- an operator between two operands -/
  | binary (operator : Operator) (left right : Tree)

/-- How strong an operator of Java is. -/
def power : Operator → Nat
  | .multiply | .divide => 6
  | .plus | .minus => 5
  | .less | .lessEquals | .greater | .greaterEquals => 4
  | .equals | .notEquals => 3
  | .and => 2
  | .or => 1

/-- Operands that wait for the right operand of the operator behind them, the last of them first. -/
abbrev Pending := List (Tree × Operator)

/-- The operand, and all that wait for it. -/
def close : Pending → Tree → Tree
  | [], t => t
  | (left, o) :: pending, t => close pending (.binary o left t)

/-- The operand and those that wait for it behind an operator as strong as `p`, and what is left to
wait for. -/
def reduce (p : Nat) : Pending → Tree → Pending × Tree
  | [], t => ([], t)
  | (left, o) :: pending, t =>
    if p ≤ power o then reduce p pending (.binary o left t) else ((left, o) :: pending, t)

/-- What stands around open parentheses. -/
inductive Frame where
  /-- parentheses around an expression -/
  | group (pending : Pending)
  /-- parentheses around the arguments of a call, some of which are read -/
  | call (pending : Pending) (callee : Tree) (arguments : List Tree)

/-- Whether something can be called. -/
def Tree.isCallable : Tree → Bool
  | name _ | member .. => true
  | _ => false

mutual

/-- Reads lexemes where an operand has to stand. -/
def atOperand (frames : List Frame) (pending : Pending) : List Lexeme → Option Tree
  | .word text :: ls => behindOperand frames pending (.name text) ls
  | .number text :: ls => behindOperand frames pending (.constant text) ls
  | .quoted text :: ls => behindOperand frames pending (.constant text) ls
  | .sign .minus :: .number text :: ls => behindOperand frames pending (.constant ("-" ++ text)) ls
  | .openParen :: ls => atOperand (.group pending :: frames) [] ls
  | .closeParen :: ls =>
    match frames, pending with
    | .call before callee [] :: frames, [] => behindOperand frames before (.call callee []) ls
    | _, _ => none
  | _ => none

/-- Reads lexemes behind an operand. -/
def behindOperand (frames : List Frame) (pending : Pending) (t : Tree) : List Lexeme → Option Tree
  | [] => if frames.isEmpty then some (close pending t) else none
  | .sign o :: ls =>
    let (pending, left) := reduce (power o) pending t
    atOperand frames ((left, o) :: pending) ls
  | .dot :: .word text :: ls => behindOperand frames pending (.member t text) ls
  | .openParen :: ls =>
    if t.isCallable then atOperand (.call pending t [] :: frames) [] ls else none
  | .comma :: ls =>
    match frames with
    | .call before callee arguments :: frames =>
      atOperand (.call before callee (arguments ++ [close pending t]) :: frames) [] ls
    | _ => none
  | .closeParen :: ls =>
    match frames with
    | .group before :: frames => behindOperand frames before (.group (close pending t)) ls
    | .call before callee arguments :: frames =>
      behindOperand frames before (.call callee (arguments ++ [close pending t])) ls
    | [] => none
  | _ => none

end

/-- The expression that Java reads in a text, if it reads one. -/
def read (text : String) : Option Tree := (lexemes text.toList).bind (atOperand [] [])

end TeachLang.Java
