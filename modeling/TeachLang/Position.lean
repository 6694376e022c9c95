/-!
# Positions and spans

Tokens, syntax nodes and diagnostics all say where they stand in a program text. A **position** is
an offset into the UTF-8 form of a named text, counted in bytes; a **span** is the stretch between
two positions, the second one just past its last byte.

While a text is read its offsets are counted without a bound. What is found in it is **stored** with
the lowest 32 bits of them, so that only texts of less than 4 GiB are sure to keep theirs.
-/

namespace TeachLang

/-- A place in a named text. -/
structure Position where
  /-- number of bytes before the place -/
  offset : Nat
  /-- name of the text -/
  file : String
  deriving DecidableEq, Repr, Inhabited

/-- The position as it is stored: of its offset only what 32 bits can hold is left. -/
def Position.stored (p : Position) : Position := { p with offset := p.offset % UInt32.size }

/-- An offset that fits into 32 bits is stored as it is. -/
theorem Position.stored_of_lt {p : Position} (h : p.offset < UInt32.size) : p.stored = p := by
  rw [Position.stored, Nat.mod_eq_of_lt h]

/-- The place of what stands in no program text, such as a definition made by the host. -/
def Position.nowhere : Position := ⟨0, "<null>"⟩

/-- A stretch of a text. -/
structure Span where
  /-- where the stretch begins -/
  start : Position
  /-- the place just past its last byte -/
  stop : Position
  deriving DecidableEq, Repr, Inhabited

/-- The stretch as it is stored. -/
def Span.stored (s : Span) : Span := ⟨s.start.stored, s.stop.stored⟩

end TeachLang
