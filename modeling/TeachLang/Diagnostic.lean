import TeachLang.Fault
import TeachLang.Position
import TeachLang.Text.Blank
import TeachLang.Text.Line

/-!
# Diagnostics

A **diagnostic** is a fault at a place. `Diagnostic.render` shows it to a person: the fault and its
tip, the name of the file, and the line of the text with a caret under the place.

    Error: UndefinedName (`y` is not defined in this scope)
    -> main.txt
      |
    2 | RETURN y;
      | -------^
-/

namespace TeachLang

/-- A fault and the place where it shows. -/
structure Diagnostic where
  /-- what is wrong -/
  fault : Fault
  /-- where it shows -/
  position : Position
  deriving DecidableEq, Repr

namespace Diagnostic

/-- The diagnostic with its place as it is stored. -/
def stored (d : Diagnostic) : Diagnostic := { d with position := d.position.stored }

/-- The message of the fault with the offset of its place. -/
def message (d : Diagnostic) : String :=
  d.fault.message ++ " at " ++ toString d.position.offset

/-- Spaces and tabs in front of a line are not shown. -/
def isIndent (c : Char) : Bool := c == ' ' || c == '\t'

/-- The first line of a rendered diagnostic. -/
def headline (d : Diagnostic) : String :=
  match d.fault.tip with
  | none => "Error: " ++ d.fault.name ++ "\n"
  | some tip => "Error: " ++ d.fault.name ++ " (" ++ tip ++ ")\n"

/-- The bar to the left of the shown line, right aligned above and below the separator that
follows the line's number. -/
def gutter (number : String) : String :=
  String.ofList (List.replicate (number.length + 1) ' ') ++ "|"

/-- Dashes up to the column of the place, then the caret. A place inside the removed indentation
is shown at the first column. -/
def caret (column indent : Nat) : String :=
  String.ofList (List.replicate (column - indent) '-') ++ "^"

/-- The line of a place, less its indentation and the blanks at its end, with the caret below. -/
def excerpt (place : Text.LinePlace) : String :=
  let number := toString place.number
  let indent := (place.text.takeWhile isIndent).length
  gutter number ++ "\n" ++
    number ++ " | " ++ String.ofList (Text.trimEnd (place.text.dropWhile isIndent)) ++ "\n" ++
    gutter number ++ " " ++ caret place.column indent ++ "\n"

/-- A diagnostic as it is shown to a person, given the text and the name of its file. A place that
the text does not reach is given by the message alone. -/
def render (d : Diagnostic) (source file : String) : String :=
  d.headline ++ "-> " ++ file ++ "\n" ++
    match Text.lineAt source.toList d.position.offset with
    | some place => excerpt place
    | none => "   " ++ d.message ++ "\n"

end Diagnostic

end TeachLang
