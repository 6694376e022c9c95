import TeachLang.Token

/-!
# Binding powers

How tightly a token holds on to the operand before it. Reading an expression at some power takes in
the operators with more power than that, so that `a + b * c` is a sum and `a - b - c` subtracts
twice from `a`.

Tokens that start an operand have the greatest power. No operator begins with them, so one of them
behind an operand is an error rather than the end of the expression.
-/

namespace TeachLang

/-- Binding powers, from the weakest to the strongest. -/
inductive Power where
  /-- that of every token that cannot go on with an expression -/
  | default
  /-- `AND` and `OR` -/
  | logical
  /-- comparisons -/
  | relational
  /-- sums and differences -/
  | additive
  /-- products and quotients -/
  | multiplicative
  /-- the dot before a member -/
  | member
  /-- the tokens that start an operand -/
  | primary
  deriving DecidableEq, Repr, Inhabited

/-- The place of a power among the powers. -/
def Power.rank : Power → Nat
  | default => 0
  | logical => 1
  | relational => 2
  | additive => 3
  | multiplicative => 4
  | member => 5
  | primary => 6

instance : LT Power := ⟨fun p q => p.rank < q.rank⟩

instance (p q : Power) : Decidable (p < q) := inferInstanceAs (Decidable (p.rank < q.rank))

/-- Whether an operand can begin with a token of this kind. -/
def Kind.startsOperand : Kind → Bool
  | nilWord | trueWord | falseWord | integer | decimal | character | string | identifier
  | openParen => true
  | _ => false

/-- The binding power of a token of this kind. -/
def Kind.power : Kind → Power
  | andWord | orWord => .logical
  | less | lessEquals | greater | greaterEquals | equals | notEquals => .relational
  | plus | dash => .additive
  | star | slash => .multiplicative
  | dot => .member
  | kind => if kind.startsOperand then .primary else .default

end TeachLang
