import TeachLang.Position

/-!
# Tokens

A program text is read as a list of **tokens**: words, numbers, quoted literals and punctuation,
closed by one token for the end of the text. Each token has a **kind**, a value and a span.

Most kinds have a spelling of their own (`Kind.spelling?`); the others are identifiers and
literals, whose value says more.
-/

namespace TeachLang

/-- The kinds of tokens. -/
inductive Kind where
  /-- the end of the text -/
  | eof
  /-- a name -/
  | identifier
  /-- a number without a point -/
  | integer
  /-- a number with a point -/
  | decimal
  /-- one character between single quotes -/
  | character
  /-- a text between double quotes -/
  | string
  /-- `(` -/
  | openParen
  /-- `)` -/
  | closeParen
  /-- `=` -/
  | assignment
  /-- `==` -/
  | equals
  /-- `!=` -/
  | notEquals
  /-- `<` -/
  | less
  /-- `<=` -/
  | lessEquals
  /-- `>` -/
  | greater
  /-- `>=` -/
  | greaterEquals
  /-- `.` -/
  | dot
  /-- `;` -/
  | semicolon
  /-- `:` -/
  | colon
  /-- `,` -/
  | comma
  /-- `+` -/
  | plus
  /-- `-` -/
  | dash
  /-- `/` -/
  | slash
  /-- `*` -/
  | star
  /-- `LET` -/
  | letWord
  /-- `DEF` -/
  | defWord
  /-- `DO` -/
  | doWord
  /-- `END` -/
  | endWord
  /-- `IF` -/
  | ifWord
  /-- `ELSE` -/
  | elseWord
  /-- `FOR` -/
  | forWord
  /-- `IN` -/
  | inWord
  /-- `WHILE` -/
  | whileWord
  /-- `RETURN` -/
  | returnWord
  /-- `NIL` -/
  | nilWord
  /-- `TRUE` -/
  | trueWord
  /-- `FALSE` -/
  | falseWord
  /-- `AND` -/
  | andWord
  /-- `OR` -/
  | orWord
  deriving DecidableEq, Repr, Inhabited

namespace Kind

/-- The name under which a kind is shown. -/
def name : Kind → String
  | eof => "EOF"
  | identifier => "Identifier"
  | integer => "Integer"
  | decimal => "Decimal"
  | character => "Character"
  | string => "String"
  | openParen => "OpenParen"
  | closeParen => "CloseParen"
  | assignment => "Assignment"
  | equals => "Equals"
  | notEquals => "NotEquals"
  | less => "Less"
  | lessEquals => "LessEquals"
  | greater => "Greater"
  | greaterEquals => "GreaterEquals"
  | dot => "Dot"
  | semicolon => "Semicolon"
  | colon => "Colon"
  | comma => "Comma"
  | plus => "Plus"
  | dash => "Dash"
  | slash => "Slash"
  | star => "Star"
  | letWord => "Let"
  | defWord => "Def"
  | doWord => "Do"
  | endWord => "End"
  | ifWord => "If"
  | elseWord => "Else"
  | forWord => "For"
  | inWord => "In"
  | whileWord => "While"
  | returnWord => "Return"
  | nilWord => "Nil"
  | trueWord => "True"
  | falseWord => "False"
  | andWord => "And"
  | orWord => "Or"

/-- The text of a kind that is always written alike. -/
def spelling? : Kind → Option String
  | eof | identifier | integer | decimal | character | string => none
  | openParen => some "("
  | closeParen => some ")"
  | assignment => some "="
  | equals => some "=="
  | notEquals => some "!="
  | less => some "<"
  | lessEquals => some "<="
  | greater => some ">"
  | greaterEquals => some ">="
  | dot => some "."
  | semicolon => some ";"
  | colon => some ":"
  | comma => some ","
  | plus => some "+"
  | dash => some "-"
  | slash => some "/"
  | star => some "*"
  | letWord => some "LET"
  | defWord => some "DEF"
  | doWord => some "DO"
  | endWord => some "END"
  | ifWord => some "IF"
  | elseWord => some "ELSE"
  | forWord => some "FOR"
  | inWord => some "IN"
  | whileWord => some "WHILE"
  | returnWord => some "RETURN"
  | nilWord => some "NIL"
  | trueWord => some "TRUE"
  | falseWord => some "FALSE"
  | andWord => some "AND"
  | orWord => some "OR"

/-- The kinds that are spelled as words and can therefore not be names. -/
def reserved : List Kind :=
  [letWord, defWord, doWord, endWord, ifWord, elseWord, forWord, inWord, whileWord, returnWord,
    nilWord, trueWord, falseWord, andWord, orWord]

/-- The kind of a word: its own if the word is reserved, and a name otherwise. -/
def ofWord (word : String) : Kind :=
  (reserved.find? fun kind => kind.spelling? == some word).getD identifier

/-- Whether a token of this kind can be the last one of an operand. A sign directly behind such a
token is an operator and never part of a number. -/
def endsOperand : Kind → Bool
  | identifier | integer | decimal | character | string | closeParen | nilWord | trueWord
  | falseWord => true
  | _ => false

end Kind

/-- A token of a program. -/
structure Token where
  /-- what sort of token it is -/
  kind : Kind
  /-- its text; for a quoted literal the text that it denotes -/
  value : String
  /-- where it stands -/
  span : Span
  deriving DecidableEq, Repr, Inhabited

/-- The token with its span as it is stored. -/
def Token.stored (token : Token) : Token := { token with span := token.span.stored }

/-- A token as it is shown in listings. -/
def Token.describe (token : Token) : String :=
  "Token \x7b\nkind: " ++ token.kind.name ++ ",\nvalue: " ++ token.value ++ "\x7d"

end TeachLang
