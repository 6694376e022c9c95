import TeachLang.Proofs.Numerals
import TeachLang.Syntax.ReadProgram

/-!
# The grammar

A tree is written back as **words**, the kinds and texts of tokens. Written back are the trees that
are **canonical**: the words alone tell which operand belongs to which operator, and every constant
has a plain spelling. To be **bare** is to have neither spans nor filled slots; that is all that
words say about a tree.

Tokens are spelled **plainly** when their numbers are. The only other thing that different lists of
tokens can differ in, when they are read as the same program, is a second body of a conditional that
is begun but empty.
-/

namespace TeachLang

/-- The kind and the text of a token. -/
abbrev Word := Kind × String

/-- The word of a kind that is always written alike. -/
def Kind.word (kind : Kind) : Word := (kind, kind.spelling?.getD "")

/-! ## Operators -/

namespace Operator

/-- The kind of the token of an operator. -/
def kind : Operator → Kind
  | and => .andWord
  | or => .orWord
  | less => .less
  | lessEquals => .lessEquals
  | greater => .greater
  | greaterEquals => .greaterEquals
  | equals => .equals
  | notEquals => .notEquals
  | plus => .plus
  | minus => .dash
  | multiply => .star
  | divide => .slash

/-- How tightly an operator holds on to its operands. -/
def power (operator : Operator) : Power := operator.kind.power

/-- The word of an operator is that of this operator only. -/
theorem ofKind?_kind (operator : Operator) : ofKind? operator.kind = some operator := by
  cases operator <;> rfl

/-- A word that is an operator is the word of that operator. -/
theorem kind_of_ofKind? {kind : Kind} {operator : Operator} (h : ofKind? kind = some operator) :
    operator.kind = kind := by
  cases kind <;> simp only [ofKind?, reduceCtorEq] at h <;> obtain rfl := Option.some.inj h <;> rfl

theorem isSome_spelling (operator : Operator) : operator.kind.spelling?.isSome = true := by
  cases operator <;> rfl

theorem kind_ne_elseWord (operator : Operator) : operator.kind ≠ .elseWord := by
  cases operator <;> exact Kind.noConfusion

/-- No operator is so loose that a whole expression would end in front of it. -/
theorem default_lt_power (operator : Operator) : Power.default < operator.power := by
  cases operator <;> decide

/-- Nothing holds its operands as tight as the dot. -/
theorem power_lt_member (operator : Operator) : operator.power < .member := by
  cases operator <;> decide

end Operator

/-! ## Words -/

/-- The word of a constant. -/
def Literal.word : Literal → Word
  | nil => Kind.nilWord.word
  | boolean true => Kind.trueWord.word
  | boolean false => Kind.falseWord.word
  | integer n => (.integer, Text.integerText n)
  | decimal d => (.decimal, d.positional)
  | character c => (.character, String.ofList [c])
  | string s => (.string, s)

namespace Expr

mutual

/-- The words of an expression. -/
def words : Expr → List Word
  | literal value _ _ => [value.word]
  | group inner _ _ => Kind.openParen.word :: (inner.words ++ [Kind.closeParen.word])
  | binary operator left right _ _ => left.words ++ operator.kind.word :: right.words
  | name n _ _ => [(.identifier, n)]
  | member receiver n _ _ => receiver.words ++ [Kind.dot.word, (.identifier, n)]
  | call n arguments _ _ => (.identifier, n) :: argumentWords arguments
  | methodCall receiver n arguments _ _ =>
    receiver.words ++ Kind.dot.word :: (.identifier, n) :: argumentWords arguments

/-- The words of arguments, with their parentheses. -/
def argumentWords : List Expr → List Word
  | [] => [Kind.openParen.word, Kind.closeParen.word]
  | first :: others =>
    Kind.openParen.word :: (first.words ++ (moreWords others ++ [Kind.closeParen.word]))

/-- The words of further arguments, each behind a comma. -/
def moreWords : List Expr → List Word
  | [] => []
  | first :: others => Kind.comma.word :: (first.words ++ moreWords others)

end

end Expr

/-- The words of a type that may be left out. -/
def markWords : Option String → List Word
  | none => []
  | some typeName => [Kind.colon.word, (.identifier, typeName)]

/-- The words of a value that may be left out. -/
def valueWords : Option Expr → List Word
  | none => []
  | some value => Kind.assignment.word :: value.words

namespace Stmt

mutual

/-- The words of a statement. -/
def words : Stmt → List Word
  | expression e _ => e.words ++ [Kind.semicolon.word]
  | declaration n typeName value _ _ =>
    Kind.letWord.word :: (.identifier, n) ::
      (markWords typeName ++ (valueWords value ++ [Kind.semicolon.word]))
  | assignment target value _ =>
    target.words ++ (valueWords (some value) ++ [Kind.semicolon.word])
  | conditional condition thenBody elseBody _ =>
    Kind.ifWord.word :: (condition.words ++ Kind.doWord.word ::
      (allWords thenBody ++ (elseWords elseBody ++ [Kind.endWord.word])))
  | forEach n items body _ =>
    Kind.forWord.word :: (.identifier, n) :: Kind.inWord.word ::
      (items.words ++ Kind.doWord.word :: (allWords body ++ [Kind.endWord.word]))
  | whileLoop condition body _ =>
    Kind.whileWord.word ::
      (condition.words ++ Kind.doWord.word :: (allWords body ++ [Kind.endWord.word]))
  | returns value _ => Kind.returnWord.word :: (value.words ++ [Kind.semicolon.word])

/-- The words of statements. -/
def allWords : List Stmt → List Word
  | [] => []
  | first :: others => first.words ++ allWords others

/-- The words of the second body of a conditional, which is left out if it is empty. -/
def elseWords : List Stmt → List Word
  | [] => []
  | first :: others => Kind.elseWord.word :: (first.words ++ allWords others)

end

end Stmt

/-- The words of a field. -/
def Field.words (f : Field) : List Word :=
  Kind.letWord.word :: (.identifier, f.name) :: Kind.colon.word :: (.identifier, f.typeName) ::
    (valueWords f.value ++ [Kind.semicolon.word])

namespace Method

/-- The words of a parameter. -/
def parameterWords (parameter : String × String) : List Word :=
  [(.identifier, parameter.1), Kind.colon.word, (.identifier, parameter.2)]

/-- The words of parameters, one at least. -/
def parametersWords (first : String × String) : List (String × String) → List Word
  | [] => parameterWords first
  | second :: others =>
    parameterWords first ++ Kind.comma.word :: parametersWords second others

/-- The words of the parameters of a method, with their parentheses. -/
def parameterListWords : List (String × String) → List Word
  | [] => [Kind.openParen.word, Kind.closeParen.word]
  | first :: others =>
    Kind.openParen.word :: (parametersWords first others ++ [Kind.closeParen.word])

/-- The words of a method. -/
def words (m : Method) : List Word :=
  Kind.defWord.word :: (.identifier, m.name) ::
    (parameterListWords m.parameters ++ (markWords m.resultTypeName ++
      Kind.doWord.word :: (Stmt.allWords m.body ++ [Kind.endWord.word])))

end Method

/-- The words of a program. -/
def Program.words (p : Program) : List Word :=
  p.fields.flatMap Field.words ++ p.methods.flatMap Method.words

/-! ## Bare trees -/

namespace Expr

mutual

/-- An expression without its spans and what fills its slots. -/
def bare : Expr → Expr
  | literal value _ _ => literal value none default
  | group inner _ _ => group inner.bare none default
  | binary operator left right _ _ => binary operator left.bare right.bare none default
  | name n _ _ => name n none default
  | member receiver n _ _ => member receiver.bare n none default
  | call n arguments _ _ => call n (allBare arguments) none default
  | methodCall receiver n arguments _ _ =>
    methodCall receiver.bare n (allBare arguments) none default

/-- Expressions without their spans and what fills their slots. -/
def allBare : List Expr → List Expr
  | [] => []
  | first :: others => first.bare :: allBare others

end

end Expr

namespace Stmt

mutual

/-- A statement without its spans and what fills its slots. -/
def bare : Stmt → Stmt
  | expression e _ => expression e.bare default
  | declaration n typeName value _ _ =>
    declaration n typeName (value.map Expr.bare) none default
  | assignment target value _ => assignment target.bare value.bare default
  | conditional condition thenBody elseBody _ =>
    conditional condition.bare (allBare thenBody) (allBare elseBody) default
  | forEach n items body _ => forEach n items.bare (allBare body) default
  | whileLoop condition body _ => whileLoop condition.bare (allBare body) default
  | returns value _ => returns value.bare default

/-- Statements without their spans and what fills their slots. -/
def allBare : List Stmt → List Stmt
  | [] => []
  | first :: others => first.bare :: allBare others

end

end Stmt

/-- A field without its spans and what fills its slots. -/
def Field.bare (f : Field) : Field :=
  { f with value := f.value.map Expr.bare, binding := none, span := default }

/-- A method without its spans and what fills its slots. -/
def Method.bare (m : Method) : Method :=
  { m with body := Stmt.allBare m.body, callee := none, span := default }

/-- A program without its spans and what fills its slots. -/
def Program.bare (p : Program) : Program :=
  ⟨p.fields.map Field.bare, p.methods.map Method.bare, default⟩

/-! ## Canonical trees -/

/-- Whether a constant has a plain spelling. A decimal needs places for it, as many as can be
kept. -/
def Literal.Spellable : Literal → Prop
  | decimal d => 0 < d.scale ∧ Decimal.scaleFits d.scale = true
  | _ => True

namespace Expr

/-- How tightly an expression holds together: as its operator does, and else like a member. -/
def power : Expr → Power
  | binary operator .. => operator.power
  | _ => .member

mutual

/-- Whether the words of an expression tell its shape. What holds together less tightly than the
operator on its right, or no more tightly than the one on its left, has to be a group, and so has
the receiver of a member if it is made by an operator. -/
def Canonical : Expr → Prop
  | literal value _ _ => value.Spellable
  | group inner _ _ => inner.Canonical
  | binary operator left right _ _ =>
    left.Canonical ∧ right.Canonical ∧ ¬ left.power < operator.power ∧ operator.power < right.power
  | name .. => True
  | member receiver _ _ _ => receiver.Canonical ∧ receiver.isBinary = false
  | call _ arguments _ _ => AllCanonical arguments
  | methodCall receiver _ arguments _ _ =>
    receiver.Canonical ∧ receiver.isBinary = false ∧ AllCanonical arguments

/-- Whether all expressions of a list are canonical. -/
def AllCanonical : List Expr → Prop
  | [] => True
  | first :: others => first.Canonical ∧ AllCanonical others

end

end Expr

namespace Stmt

mutual

/-- Whether all expressions in a statement are canonical. -/
def Canonical : Stmt → Prop
  | expression e _ => e.Canonical
  | declaration _ _ value _ _ => ∀ e ∈ value, e.Canonical
  | assignment target value _ => target.Canonical ∧ value.Canonical
  | conditional condition thenBody elseBody _ =>
    condition.Canonical ∧ AllCanonical thenBody ∧ AllCanonical elseBody
  | forEach _ items body _ => items.Canonical ∧ AllCanonical body
  | whileLoop condition body _ => condition.Canonical ∧ AllCanonical body
  | returns value _ => value.Canonical

/-- Whether all expressions in statements are canonical. -/
def AllCanonical : List Stmt → Prop
  | [] => True
  | first :: others => first.Canonical ∧ AllCanonical others

end

end Stmt

/-- Whether all expressions in a program are canonical. -/
structure Program.Canonical (p : Program) : Prop where
  /-- those that are first values of fields -/
  fields : ∀ f ∈ p.fields, ∀ e ∈ f.value, e.Canonical
  /-- those in methods -/
  methods : ∀ m ∈ p.methods, Stmt.AllCanonical m.body

/-! ## Tokens -/

namespace Token

/-- The word of a token. -/
def word (token : Token) : Word := (token.kind, token.value)

@[simp]
theorem word_stored (token : Token) : token.stored.word = token.word := rfl

/-- Words do not depend on where their tokens stand. -/
theorem map_word_stored (tokens : List Token) : (tokens.map stored).map word = tokens.map word := by
  rw [List.map_map]
  exact List.map_congr_left fun token _ => word_stored token

/-- The word of a token with the plain spelling of numbers. -/
def plain (token : Token) : Word :=
  match token.kind with
  | .integer | .decimal => (token.kind, Text.plainNumber token.value)
  | _ => token.word

/-- Whether the text of a token is one that tokens of its kind have. No token closes the text. -/
def WellFormed (token : Token) : Prop :=
  match token.kind with
  | .eof => False
  | .integer =>
    ∃ sign ∈ Text.signs, ∃ cs, Text.IsDigits cs ∧ token.value = String.ofList (sign ++ cs)
  | .decimal => ∃ sign ∈ Text.signs, ∃ cs ds, Text.IsDigits cs ∧ Text.IsDigits ds ∧
      token.value = String.ofList (sign ++ (cs ++ '.' :: ds))
  | .character => ∃ c, token.value = String.ofList [c]
  | .identifier | .string => True
  | kind => kind.spelling? = some token.value

end Token

/-- Words without those that begin a second body of a conditional and leave it empty. -/
def withoutEmptyElse : List Word → List Word
  | [] => []
  | w :: ws =>
    if w.1 = .elseWord ∧ (ws.head?.map Prod.fst) = some .endWord then withoutEmptyElse ws
    else w :: withoutEmptyElse ws

end TeachLang
