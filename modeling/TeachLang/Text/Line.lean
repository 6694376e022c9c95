import TeachLang.Text.Bytes

/-!
# Lines of a text

Diagnostics show the line that a byte offset falls on.

* `lines` cuts a text behind each newline, so that the pieces put together give the text back.
* `lineAt` finds the line of an offset, its number and the bytes before the offset on it. The very
  end of a text belongs to its last line, unless that line is closed by a newline: then the end is
  the start of one more, empty line.
-/

namespace TeachLang.Text

/-- The lines of a text, each with the newline that closes it. -/
def lines : List Char → List (List Char)
  | [] => []
  | c :: cs =>
    if c = '\n' then [c] :: lines cs
    else match lines cs with
      | [] => [[c]]
      | l :: ls => (c :: l) :: ls

/-- A place in a text as a reader finds it. -/
structure LinePlace where
  /-- number of the line, from 1 -/
  number : Nat
  /-- the whole line, with its newline if it has one -/
  text : List Char
  /-- bytes before the place on its line -/
  column : Nat
  deriving DecidableEq, Repr

/-- Walks down the lines, the first of which has the given number, to the line of an offset that
is counted from the start of that first line. -/
def findLine (number offset : Nat) : List (List Char) → Option LinePlace
  | [] => if offset = 0 then some ⟨number, [], 0⟩ else none
  | l :: ls =>
    if offset < byteLength l then some ⟨number, l, offset⟩
    else if ls = [] ∧ offset = byteLength l ∧ l.getLast? ≠ some '\n' then
      some ⟨number, l, offset⟩
    else findLine (number + 1) (offset - byteLength l) ls

/-- The line on which a byte offset falls, if the text reaches that far. -/
def lineAt (text : List Char) (offset : Nat) : Option LinePlace :=
  findLine 1 offset (lines text)

end TeachLang.Text
