import TeachLang.Value

/-!
# Operators on values

What each operator makes of two values. The forms of the operands decide; where an operator does
not take the two, the fault names their types.

* Equality takes any two values. Two decimals are equal only if their scales are equal too, unless
  they are parts of other values.
* The order is that of numbers, of code points and of texts by their code points; only operands of
  one form can be ordered.
* A sum with a text puts texts together. Quotients of whole numbers are cut off toward zero.
-/

namespace TeachLang.Value

/-- The fault of two values that an operator does not take. -/
def mismatch (left right : Value) (position : Position) : Diagnostic :=
  ⟨.runtimeTypeMismatch left.ty.name right.ty.name, position⟩

/-- Whether two operands are equal. -/
def equals : Value → Value → Bool
  | atom _ (.decimal a), atom _ (.decimal b) => decide (a = b)
  | left, right => same left right

/-- The order of two texts. -/
def compareText (a b : String) : Ordering :=
  if a < b then .lt else if a = b then .eq else .gt

/-- The order of two values, if they have one. -/
def order? : Value → Value → Option Ordering
  | atom _ (.integer a), atom _ (.integer b) => some (compare a b)
  | atom _ (.decimal a), atom _ (.decimal b) => some (a.compare b)
  | atom _ (.character a), atom _ (.character b) => some (compare a.toNat b.toNat)
  | atom _ (.string a), atom _ (.string b) => some (compareText a b)
  | _, _ => none

/-- Whether a value is a text. -/
def isText : Value → Bool
  | atom _ (.string _) => true
  | _ => false

/-- The truth value that a condition must be. -/
def truth (value : Value) (position : Position) : Except Diagnostic Bool :=
  match value with
  | atom _ (.boolean b) => .ok b
  | _ => .error ⟨.runtimeTypeMismatch "Boolean" value.ty.name, position⟩

/-- Compares two values and asks about their order. -/
def ordered (left right : Value) (position : Position) (holds : Ordering → Bool) :
    Except Diagnostic Value :=
  match order? left right with
  | some order => .ok (boolean (holds order))
  | none => .error (mismatch left right position)

/-- Computes with two whole numbers or with two decimals. -/
def arithmetic (left right : Value) (position : Position) (whole : Int → Int → Int)
    (fraction : Decimal → Decimal → Decimal) : Except Diagnostic Value :=
  match left, right with
  | atom _ (.integer a), atom _ (.integer b) => .ok (integer (whole a b))
  | atom _ (.decimal a), atom _ (.decimal b) => .ok (decimal (fraction a b))
  | _, _ => .error (mismatch left right position)

/-- Whether division by a value of the form of `left` has no answer. -/
def dividesByZero : Value → Value → Bool
  | atom _ (.integer _), atom _ (.integer b) => b == 0
  | atom _ (.decimal _), atom _ (.decimal b) => b.isZero
  | _, _ => false

/-- What an operator makes of two values; both operands of `AND` and `OR` must be truth values. -/
def apply (operator : Operator) (left right : Value) (position : Position) :
    Except Diagnostic Value :=
  match operator with
  | .equals => .ok (boolean (equals left right))
  | .notEquals => .ok (boolean (!equals left right))
  | .less => ordered left right position Ordering.isLT
  | .lessEquals => ordered left right position Ordering.isLE
  | .greater => ordered left right position Ordering.isGT
  | .greaterEquals => ordered left right position Ordering.isGE
  | .plus =>
    if left.isText || right.isText then .ok (string (left.text ++ right.text))
    else arithmetic left right position (· + ·) Decimal.add
  | .minus => arithmetic left right position (· - ·) Decimal.sub
  | .multiply => arithmetic left right position (· * ·) Decimal.mul
  | .divide =>
    if dividesByZero left right then .error ⟨.divisionByZero, position⟩
    else arithmetic left right position Int.tdiv Decimal.divide
  | .and => do
    let a ← left.truth position
    let b ← right.truth position
    return boolean (a && b)
  | .or => do
    let a ← left.truth position
    let b ← right.truth position
    return boolean (a || b)

end TeachLang.Value
