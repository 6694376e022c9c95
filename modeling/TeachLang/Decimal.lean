/-!
# Decimal numbers

A decimal is an unscaled integer together with a scale: ⟨150, 2⟩ is 1.50. The scale is part of the
number. It says how many places are shown, and ⟨150, 2⟩ and ⟨15, 1⟩ are different decimals with the
same **value**. A negative scale moves the point to the right: ⟨15, -2⟩ is 1500.

All but the quotient is the arithmetic of an arbitrary-precision library, `BigDecimal` 0.4. What its
documentation says of it is this:

* A decimal is an integer of any size with a scale of 64 bits.
* Sums, differences and products are exact. A sum or difference has the larger of the two scales, a
  product has the sum of them.
* Order and equality are those of the values.

Beside that it has habits, which show in the scales of results. Their constants stand here under
names of their own: `zeroPlaces` for sums with zero, `unitPlaces` for products with one.
`TeachLang.Decimal.Exact` proves from the definitions what is documented. Scales that do not fit
into 64 bits are not described: reading refuses them, sums and differences never lead to them, and a
product or a normal form does only from scales that are near the limit themselves.

A quotient is rounded at the scale of the dividend, a half going to the even neighbour.

Scales can lie so far apart that a common one would take more digits than can be kept. A zero needs
none of them, and two values are compared without.
-/

namespace TeachLang

/-- The decimal `unscaled / 10 ^ scale`. -/
structure Decimal where
  /-- all its digits, with the sign -/
  unscaled : Int
  /-- how many of the digits stand behind the point -/
  scale : Int
  deriving DecidableEq, Repr, Inhabited

namespace Decimal

/-- A power of ten. -/
def tenTo (n : Nat) : Nat := Nat.pow 10 n

/-- Whether the value is zero, at any scale. -/
def isZero (d : Decimal) : Bool := d.unscaled == 0

/-- The same value at a scale that is `places` larger. -/
def extend (d : Decimal) (places : Nat) : Decimal :=
  ⟨d.unscaled * tenTo places, d.scale + places⟩

/-- The unscaled integer of `a` at the larger of the scales of `a` and `b`. Zero is the same at
every scale. -/
def aligned (a b : Decimal) : Int :=
  if a.isZero then 0 else a.unscaled * tenTo (b.scale - a.scale).toNat

/-- How many places an added zero can give to the other operand at most. This is a habit of the
library. -/
def zeroPlaces : Nat := 15

/-- The sum, which is exact, at the larger of the two scales. A zero adds no digits but only places,
and no more of them than `zeroPlaces`. -/
def add (a b : Decimal) : Decimal :=
  if b.isZero then a.extend (min (b.scale - a.scale).toNat zeroPlaces)
  else if a.isZero then b.extend (min (a.scale - b.scale).toNat zeroPlaces)
  else ⟨aligned a b + aligned b a, max a.scale b.scale⟩

/-- The difference, which is exact, at the larger of the two scales. -/
def sub (a b : Decimal) : Decimal := ⟨aligned a b - aligned b a, max a.scale b.scale⟩

/-- The same value with no zero at the end of its unscaled integer; zero has the scale zero. -/
def normalize (d : Decimal) : Decimal :=
  if d.unscaled = 0 then ⟨0, 0⟩
  else if d.unscaled % 10 = 0 then normalize ⟨d.unscaled / 10, d.scale - 1⟩
  else d
termination_by d.unscaled.natAbs
decreasing_by omega

/-- The largest scale at which a one is recognised as a neutral factor. This is a habit of the
library; the powers of ten up to there are those that fit into 128 bits. -/
def unitPlaces : Int := 38

/-- Whether a factor is recognised as one. -/
def isUnit (d : Decimal) : Bool :=
  0 ≤ d.scale && d.scale ≤ unitPlaces && d.unscaled == tenTo d.scale.toNat

/-- The product, which is exact, at the sum of the scales. A factor that is recognised as one leaves
the other in normal form; the left one is tried first. -/
def mul (a b : Decimal) : Decimal :=
  if a.isUnit then b.normalize
  else if b.isUnit then a.normalize
  else ⟨a.unscaled * b.unscaled, a.scale + b.scale⟩

/-- So many places bring every integer but zero beyond the unscaled integer of `d`. -/
def reach (d : Decimal) : Nat := d.unscaled.natAbs.log2 + 1

/-- An integer that compares with `comparand b a` as the value of `a` does with that of `b`. It is
`aligned a b`, except that no more places are added than decide the comparison. -/
def comparand (a b : Decimal) : Int :=
  a.unscaled * tenTo (min (b.scale - a.scale).toNat b.reach)

/-- How the values of two decimals compare. -/
def compare (a b : Decimal) : Ordering := Ord.compare (comparand a b) (comparand b a)

/-- Whether two decimals have the same value, whatever their scales. -/
def sameValue (a b : Decimal) : Bool := comparand a b == comparand b a

/-- The integer nearest to a quotient, and of two equally near ones the even one. The quotient is
cut off toward zero first and then moved one further from zero if the rest is too large. -/
def roundQuotient (numerator denominator : Int) : Int :=
  let quotient := numerator.tdiv denominator
  let rest := 2 * (numerator.tmod denominator).natAbs
  let away : Int := if numerator < 0 ↔ denominator < 0 then 1 else -1
  if rest > denominator.natAbs ∨ (rest = denominator.natAbs ∧ quotient % 2 ≠ 0) then
    quotient + away
  else quotient

/-- The largest number of places by which a division moves the point. -/
def divisionPlaces : Nat := 4294967295

/-- The power of ten that moves the point in a division. -/
def divisionPower (places : Nat) : Nat := tenTo (min places divisionPlaces)

/-- The quotient at the scale of the dividend, rounded to the nearest decimal of that scale. The
divisor must not be zero, and its scale no larger than `divisionPlaces` on either side of zero. -/
def divide (a b : Decimal) : Decimal :=
  ⟨roundQuotient (a.unscaled * divisionPower b.scale.toNat)
      (b.unscaled * divisionPower (-b.scale).toNat),
    a.scale⟩

end Decimal

end TeachLang
