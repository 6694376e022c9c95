/-!
# Numerals

Integers as they are written: an optional sign and decimal digits. Underscores may stand between
the digits to group them, so the first of them must be a digit.
-/

namespace TeachLang.Text

/-- The number that decimal digits denote. -/
def digitsValue (digits : List Char) : Nat :=
  digits.foldl (fun n c => 10 * n + (c.toNat - '0'.toNat)) 0

/-- Reads digits, the later ones of which may be grouped by underscores. -/
def natural? : List Char → Option Nat
  | [] => none
  | c :: cs =>
    if c.isDigit ∧ cs.all (fun d => d.isDigit || d == '_') then
      some (digitsValue ((c :: cs).filter Char.isDigit))
    else none

/-- Reads an optional sign and digits. -/
def integer? : List Char → Option Int
  | '-' :: cs => (natural? cs).map fun n => -(n : Int)
  | '+' :: cs => (natural? cs).map Int.ofNat
  | cs => (natural? cs).map Int.ofNat

/-- The decimal digits of a number, without a sign. -/
def digits (n : Nat) : List Char := Nat.toDigits 10 n

end TeachLang.Text
