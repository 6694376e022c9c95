import TeachLang.Decimal
import TeachLang.Text.Numeral

/-!
# Written decimals

The text of a decimal, and the decimal of a text.

`Decimal.write` uses positional notation with every digit of the scale wherever few zeros fill the
gap between the digits and the point, and an exponent otherwise. `Decimal.read?` takes a sign,
digits that underscores may group, a point anywhere among them and an exponent.

Both are those of the library that the arithmetic comes from. It documents the two notations, with
the numbers of zeros at which it goes over to an exponent as settings, which have their default
values here (`leadingZeros`, `trailingZeros`), and the texts that it reads. That a negative exponent
is marked with `E` and a positive one with `e` is its habit, and so is that zero has no places.

Programs rely on less: digits with a point among them are read as they stand
(`Decimal.read?_written`).
-/

namespace TeachLang.Decimal

/-- With more zeros than this between the point and the first digit, an exponent is written. This is
the default setting. -/
def leadingZeros : Nat := 5

/-- With more zeros than this between the last digit and the point, an exponent is written. This is
the default setting. -/
def trailingZeros : Nat := 15

/-- So many zeros. -/
def zeros (n : Nat) : String := String.ofList (List.replicate n '0')

/-- A positive number with the given digits, `scale` of them behind the point. -/
def writeFraction (digits : List Char) (scale : Nat) : String :=
  if scale < digits.length then
    String.ofList (digits.take (digits.length - scale)) ++ "." ++
      String.ofList (digits.drop (digits.length - scale))
  else if scale - digits.length ≤ leadingZeros then
    "0." ++ zeros (scale - digits.length) ++ String.ofList digits
  else
    let exponent := scale + 1 - digits.length
    let point := if digits.length = 1 then "" else "."
    String.ofList (digits.take 1) ++ point ++ String.ofList (digits.drop 1) ++
      "E-" ++ toString exponent

/-- A positive number with the given digits before so many zeros. -/
def writeWhole (digits : List Char) (zeroCount : Nat) : String :=
  if zeroCount ≤ trailingZeros then String.ofList digits ++ zeros zeroCount
  else String.ofList digits ++ "e+" ++ toString zeroCount

/-- The text of a decimal. Zero is written without its places. -/
def write (d : Decimal) : String :=
  if d.isZero then "0"
  else
    let digits := Text.digits d.unscaled.natAbs
    (if d.unscaled < 0 then "-" else "") ++
      if 0 < d.scale then writeFraction digits d.scale.toNat
      else writeWhole digits (-d.scale).toNat

/-- Reads the exponent behind a number: nothing, or a mark and an integer without underscores. -/
def exponent? : List Char → Option Int
  | [] => some 0
  | _ :: cs => if '_' ∈ cs then none else Text.integer? cs

/-- The digits before an exponent, the point taken out, and the number of places behind the point.
Some text must stand there. -/
def mantissa? (cs : List Char) : Option (List Char × Nat) :=
  let whole := cs.takeWhile (· ≠ '.')
  match cs, cs.dropWhile (· ≠ '.') with
  | [], _ => none
  | _, [] => some (whole, 0)
  | _, _ :: places => some (whole ++ places, (places.filter (· ≠ '_')).length)

/-- Scales are kept in 64 bits. -/
def scaleFits (scale : Int) : Bool :=
  -9223372036854775808 ≤ scale && scale ≤ 9223372036854775807

/-- The decimal that a text denotes, if it denotes one: the digits are the unscaled integer, and the
places behind the point less the exponent are the scale, which must fit. -/
def read? (text : String) : Option Decimal := do
  let marks := fun c : Char => c = 'e' ∨ c = 'E'
  let (digits, places) ← mantissa? (text.toList.takeWhile fun c => ¬ marks c)
  let exponent ← exponent? (text.toList.dropWhile fun c => ¬ marks c)
  let unscaled ← Text.integer? digits
  let scale := (places : Int) - exponent
  if scaleFits scale then some ⟨unscaled, scale⟩ else none

/-! ## The range of double precision -/

/-- From here on the nearest double of a number is infinite: half a unit of the last place above the
largest finite one. -/
def doubleBound : Nat := Nat.pow 2 1024 - Nat.pow 2 970

/-- A number with more places than this is not converted: the conversion keeps them in 32 bits. -/
def doublePlaces : Int := 2147483647

/-- Whether a decimal is zero or converted to a finite double, which is documented to be the nearest
one. The bound has 309 digits, so that the exact comparison is made only for decimals with as many
before the point. Within the last bits of the bound itself the conversion of the library is not
exact, and is not followed. -/
def fitsDouble (d : Decimal) : Bool :=
  let n := d.unscaled.natAbs
  let whole := (Text.digits n).length - d.scale
  if n = 0 then true
  else if d.scale > doublePlaces then false
  else if whole < 309 then true
  else if whole > 309 then false
  else n * tenTo (-d.scale).toNat < doubleBound * tenTo d.scale.toNat

end TeachLang.Decimal
