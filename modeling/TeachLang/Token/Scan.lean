import TeachLang.Diagnostic
import TeachLang.Token
import TeachLang.Token.Literal

/-!
# From text to tokens

`piece` looks at the front of a text and takes one **piece** off it: a run of separators, a token,
or a fault. The rules are tried in a fixed order and the first that applies wins, so `<=` is never
read as `<` and `=`.

* A number takes its sign with it, unless the token before can end an operand: `n -1` subtracts.
* A quote that opens no complete literal is a fault at the quote itself; an escape that does not
  exist is a fault at its backslash.

A piece is described by the number of characters it has behind its first one, so that what is left
is always shorter and `scan` comes to the end of every text.
-/

namespace TeachLang.Token

/-- The characters that may stand between tokens. -/
def isSeparator (c : Char) : Bool :=
  c == ' ' || c == '\x08' || c == '\n' || c == '\r' || c == '\t'

/-- The characters that a name can begin with. -/
def startsWord (c : Char) : Bool := c.isAlpha || c == '_'

/-- The characters that a name can go on with. -/
def continuesWord (c : Char) : Bool := c.isAlphanum || c == '_'

/-- What was found at the front of a text; `more` counts the characters behind the first. -/
inductive Piece where
  /-- a run of separators -/
  | separators (more : Nat)
  /-- a token -/
  | token (kind : Kind) (value : String) (more : Nat)
  /-- a fault, the given number of bytes behind the front -/
  | fault (fault : Fault) (bytes : Nat)
  deriving DecidableEq, Repr

/-- The digits at the front of a text, with a point and the digits behind it if there are any. -/
def numberText (cs : List Char) : List Char :=
  let whole := cs.takeWhile Char.isDigit
  match cs.dropWhile Char.isDigit with
  | '.' :: rest =>
    let fraction := rest.takeWhile Char.isDigit
    if fraction = [] then whole else whole ++ '.' :: fraction
  | _ => whole

/-- A number that begins with the given character and goes on with `tail`. -/
def number (c : Char) (tail : List Char) : Piece :=
  .token (if '.' ∈ tail then .decimal else .integer) (String.ofList (c :: tail)) tail.length

/-- A literal whose body has been found, or the first of its escapes that does not exist. -/
def quotedLiteral (kind : Kind) (body : List Char) : Piece :=
  match decode body with
  | .ok text => .token kind (String.ofList text) (body.length + 1)
  | .error (fault, bytes) => .fault fault (1 + bytes)

/-- Operators and punctuation, the longer ones first. -/
def symbols : List Kind :=
  [.lessEquals, .greaterEquals, .equals, .notEquals, .less, .greater, .assignment, .plus, .dash,
    .star, .slash, .dot, .comma, .semicolon, .colon, .openParen, .closeParen]

/-- The first symbol that the text begins with, and its spelling. -/
def symbol? (cs : List Char) : Option (Kind × String) :=
  symbols.findSome? fun kind =>
    kind.spelling?.bind fun spelling =>
      if spelling.toList.isPrefixOf cs then some (kind, spelling) else none

/-- The piece at the front of a text that begins with `c` and goes on with `cs`. -/
def piece (afterOperand : Bool) (c : Char) (cs : List Char) : Piece :=
  if isSeparator c then
    .separators (cs.takeWhile isSeparator).length
  else if startsWord c then
    let word := String.ofList (c :: cs.takeWhile continuesWord)
    .token (Kind.ofWord word) word (cs.takeWhile continuesWord).length
  else if (c = '+' ∨ c = '-') ∧ (cs.head?.any Char.isDigit) ∧ ¬ afterOperand then
    number c (numberText cs)
  else if c.isDigit then
    number c (numberText cs)
  else if c = '\'' then
    match rawBody c cs with
    | some body => if isSingle body then quotedLiteral .character body
      else .fault .unterminatedLiteral 0
    | none => .fault .unterminatedLiteral 0
  else if c = '"' then
    match rawBody c cs with
    | some body => quotedLiteral .string body
    | none => .fault .unterminatedLiteral 0
  else match symbol? (c :: cs) with
    | some (kind, spelling) => .token kind spelling (spelling.length - 1)
    | none => .fault (.unrecognisedToken c.toString) 0

/-- How far the reading of a text came. -/
structure Scan where
  /-- the tokens found, without one for the end -/
  tokens : List Token
  /-- the number of bytes of the whole text, or what stopped the reading -/
  finish : Except Diagnostic Nat

/-- Reads the tokens of a text that begins `offset` bytes into the file, behind a token of the
kind `previous` if there is one. -/
def scan (file : String) (offset : Nat) (previous : Option Kind) : List Char → Scan
  | [] => ⟨[], .ok offset⟩
  | c :: cs =>
    match piece (previous.any Kind.endsOperand) c cs with
    | .separators more =>
      scan file (offset + Text.byteLength (c :: cs.take more)) previous (cs.drop more)
    | .token kind value more =>
      let stop := offset + Text.byteLength (c :: cs.take more)
      let rest := scan file stop (some kind) (cs.drop more)
      ⟨⟨kind, value, ⟨⟨offset, file⟩, ⟨stop, file⟩⟩⟩ :: rest.tokens, rest.finish⟩
    | .fault fault bytes => ⟨[], .error ⟨fault, ⟨offset + bytes, file⟩⟩⟩
termination_by cs => cs.length
decreasing_by all_goals simp only [List.length_drop, List.length_cons]; omega

/-- The token that closes the tokens of a text of the given length. -/
def endOfText (file : String) (length : Nat) : Token :=
  ⟨.eof, "EOF", ⟨⟨length, file⟩, ⟨length, file⟩⟩⟩

/-- The name of texts that come from no file. -/
def unnamedFile : String := "shell"

/-- The tokens of a text where they are found, closed by the end of the text, or the first fault in
it. -/
def scanText (source : String) (file : String) : Except Diagnostic (List Token) :=
  let found := scan file 0 none source.toList
  match found.finish with
  | .ok length => .ok (found.tokens ++ [endOfText file length])
  | .error diagnostic => .error diagnostic

/-- The tokens of a text, closed by the end of the text, or the first fault in it. Their places are
as they are stored. -/
def tokenize (source : String) (file : String) : Except Diagnostic (List Token) :=
  match scanText source file with
  | .ok tokens => .ok (tokens.map stored)
  | .error diagnostic => .error diagnostic.stored

variable {source file : String} {tokens : List Token} {d : Diagnostic}

/-- Tokens are those that scanning finds, as they are stored. -/
theorem scanText_of_tokenize (h : tokenize source file = .ok tokens) :
    ∃ found, scanText source file = .ok found ∧ tokens = found.map stored := by
  rw [tokenize] at h
  split at h
  · next found hfound => exact ⟨found, hfound, (Except.ok.inj h).symm⟩
  · cases h

/-- So is the fault. -/
theorem scanText_of_fault (h : tokenize source file = .error d) :
    ∃ found, scanText source file = .error found ∧ d = found.stored := by
  rw [tokenize] at h
  split at h
  · cases h
  · next found hfound => exact ⟨found, hfound, (Except.error.inj h).symm⟩

end TeachLang.Token
