import TeachLang.Fault
import TeachLang.Text.Bytes

/-!
# Quoted literals

Characters stand between single quotes and texts between double quotes. Inside, a backslash takes
the next character with it, so that a literal can hold its own quote and the characters that may
not be written in it plainly.

* `rawBody` finds where a literal ends;
* `decode` replaces the **escapes** of a body by the characters that they stand for.
-/

namespace TeachLang.Token

/-- The characters up to the closing quote, none if the literal is not closed. A line break ends
the search; a backslash takes any character with it but a newline. -/
def rawBody (quote : Char) : List Char → Option (List Char)
  | [] => none
  | '\\' :: c :: cs => if c = '\n' then none else (rawBody quote cs).map fun b => '\\' :: c :: b
  | c :: cs =>
    if c = quote then some []
    else if c = '\\' ∨ c = '\n' ∨ c = '\r' then none
    else (rawBody quote cs).map (c :: ·)

/-- The character that a backslash makes of the one behind it. -/
def escape? : Char → Option Char
  | 'b' => some '\x08'
  | 'n' => some '\n'
  | 'r' => some '\r'
  | 't' => some '\t'
  | '\'' => some '\''
  | '"' => some '"'
  | '\\' => some '\\'
  | _ => none

/-- What a body denotes, or a fault and the number of bytes before the backslash it stands at. -/
def decode : List Char → Except (Fault × Nat) (List Char)
  | [] => .ok []
  | ['\\'] => .error (.unterminatedLiteral, 0)
  | '\\' :: c :: cs =>
    match escape? c with
    | none => .error (.invalidEscape c, 0)
    | some d =>
      match decode cs with
      | .ok text => .ok (d :: text)
      | .error (fault, bytes) => .error (fault, 1 + c.utf8Size + bytes)
  | c :: cs =>
    match decode cs with
    | .ok text => .ok (c :: text)
    | .error (fault, bytes) => .error (fault, c.utf8Size + bytes)

/-- Whether a body is that of one character: a plain one, or a backslash and the character it takes
with it. -/
def isSingle : List Char → Bool
  | [_] => true
  | ['\\', _] => true
  | _ => false

end TeachLang.Token
