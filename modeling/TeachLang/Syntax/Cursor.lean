import TeachLang.Syntax

/-!
# Cursors

A **cursor** stands in a list of tokens. It knows the tokens ahead and where the token behind it
ended; the last token, which closes the text, stays in front of the cursor for good. A token for
the end of the text may also stand among the tokens ahead, where reading stops just as well.

Reading from a cursor takes tokens off the front. The result, a `Read n α`, carries the proof that
fewer than `n` tokens are left, so that whoever reads on can see that reading comes to an end.
-/

namespace TeachLang

/-- A place in a list of tokens. -/
structure Cursor where
  /-- where the token before the place ends -/
  before : Position
  /-- the tokens ahead, without the one that closes the text -/
  ahead : List Token
  /-- text of the token that closes the text -/
  closingValue : String
  /-- place of the token that closes the text -/
  closingSpan : Span

/-- A failure to read, with the cursor where reading stopped. -/
structure Failure where
  /-- what is wrong -/
  diagnostic : Diagnostic
  /-- where reading stopped -/
  stopped : Cursor

namespace Cursor

/-- A cursor in front of the first of the tokens of a file. A list that is not closed by the end
of the text is closed where its last token ends. -/
def ofTokens (tokens : List Token) (file : String) : Cursor :=
  let start : Position := ⟨0, file⟩
  match tokens.getLast? with
  | some token =>
    if token.kind = .eof then ⟨start, tokens.dropLast, token.value, token.span⟩
    else ⟨start, tokens, "EOF", ⟨token.span.stop, token.span.stop⟩⟩
  | none => ⟨start, [], "EOF", ⟨start, start⟩⟩

/-- The token that closes the text. -/
def closing (c : Cursor) : Token := ⟨.eof, c.closingValue, c.closingSpan⟩

/-- The token in front of the cursor. -/
def current (c : Cursor) : Token := c.ahead.head?.getD c.closing

/-- The kind of the token in front of the cursor. -/
def kind (c : Cursor) : Kind := c.current.kind

/-- The kind of the token behind the one in front of the cursor. -/
def nextKind (c : Cursor) : Kind := (c.ahead.tail.head?.getD c.closing).kind

/-- Where the token in front of the cursor starts. -/
def position (c : Cursor) : Position := c.current.span.start

/-- Whether tokens are left before the end of the text. -/
def hasTokens (c : Cursor) : Bool := c.kind != .eof

/-- Number of tokens ahead. -/
def remaining (c : Cursor) : Nat := c.ahead.length

/-- The fault of the token in front of the cursor. -/
def unexpected (c : Cursor) : Diagnostic := ⟨.unexpectedToken c.current.value, c.position⟩

/-- The fault of the token in front of the cursor, with a word on what should stand there. -/
def unexpectedFor (c : Cursor) (message : String) : Diagnostic :=
  ⟨.unexpectedTokenDetailed c.current.value message, c.position⟩

/-- Stops reading here. -/
def fail {α : Type} (c : Cursor) (diagnostic : Diagnostic) : Except Failure α :=
  .error ⟨diagnostic, c⟩

end Cursor

/-- Something read from a place with `n` tokens ahead. -/
structure Read (n : Nat) (α : Type) where
  /-- what was read -/
  value : α
  /-- the place behind it -/
  next : Cursor
  /-- tokens were taken to read it -/
  shorter : next.remaining < n

namespace Read

variable {α : Type} {n : Nat} {place : Cursor}

/-- What was read from a place that is itself behind something else, as read from in front of
that. -/
def after (shorter : place.remaining < n) (read : Read place.remaining α) : Read n α :=
  ⟨read.value, read.next, Nat.lt_trans read.shorter shorter⟩

/-- What was read from such a place, where perhaps no token was taken. -/
def orAfter (shorter : place.remaining < n) (read : Read (place.remaining + 1) α) : Read n α :=
  ⟨read.value, read.next, Nat.lt_of_lt_of_le read.shorter shorter⟩

/-- What was read, where it might have been nothing. -/
def loose (read : Read n α) : Read (n + 1) α :=
  ⟨read.value, read.next, Nat.lt_succ_of_lt read.shorter⟩

/-- Nothing was read. -/
def nothing (value : α) (place : Cursor) : Read (place.remaining + 1) α :=
  ⟨value, place, Nat.lt_succ_self place.remaining⟩

end Read

namespace Cursor

/-- Takes the token in front of the cursor, unless it is the one that closes the text. -/
def take? (c : Cursor) : Option (Read c.remaining Token) :=
  match h : c.ahead with
  | [] => none
  | token :: tokens =>
    some ⟨token, { c with before := token.span.stop, ahead := tokens }, by simp [remaining, h]⟩

/-- Takes a token of the given kind, which is not that of the end of the text, or stops with the
given fault. -/
def expectOr (c : Cursor) (kind : Kind) (diagnostic : Diagnostic) :
    Except Failure (Read c.remaining Token) :=
  match c.take? with
  | some token => if token.value.kind = kind then .ok token else c.fail diagnostic
  | none => c.fail diagnostic

/-- Takes a token of the given kind. -/
def expect (c : Cursor) (kind : Kind) : Except Failure (Read c.remaining Token) :=
  c.expectOr kind c.unexpected

/-- Takes a token of the given kind, with a word on what should stand there. -/
def expectFor (c : Cursor) (kind : Kind) (message : String) :
    Except Failure (Read c.remaining Token) :=
  c.expectOr kind (c.unexpectedFor message)

/-- Takes a name. -/
def expectName (c : Cursor) (message : String) : Except Failure (Read c.remaining String) := do
  let ⟨token, next, shorter⟩ ← c.expectFor .identifier message
  return ⟨token.value, next, shorter⟩

end Cursor

end TeachLang
