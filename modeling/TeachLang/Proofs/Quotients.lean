import Mathlib.Algebra.Order.Ring.Abs
import Mathlib.Data.Rat.Floor
import Mathlib.Tactic.FieldSimp
import Mathlib.Tactic.Linarith
import Mathlib.Tactic.Ring
import TeachLang.Decimal

/-!
# Rounded quotients

A quotient of decimals is the exact quotient, rounded once.

* `NearestEven x n` says that `n` is the integer nearest to `x`, and the even one where two are
  equally near. There is only one such integer (`NearestEven.unique`).
* `roundQuotient_nearestEven`: cutting a quotient off and moving it by one, depending on twice the
  rest, makes that integer of it, whatever the signs.
* `divide_exactly_rounded`: so the digits of a quotient of decimals are nearest to the exact
  quotient at the scale of the dividend.
-/

namespace TeachLang.Decimal

/-- No integer is nearer to a number than this one, and another is as near only if this one is
even. -/
structure NearestEven (x : ℚ) (n : ℤ) : Prop where
  /-- no integer is nearer -/
  nearest : ∀ m : ℤ, |x - n| ≤ |x - m|
  /-- of two that are equally near it is the even one -/
  even : ∀ m : ℤ, m ≠ n → |x - m| = |x - n| → Even n

namespace NearestEven

variable {x : ℚ} {m n : ℤ}

/-- The distances of two integers from a number make up one at least. -/
theorem one_le_distances (x : ℚ) (h : m ≠ n) : 1 ≤ |x - m| + |x - n| := by
  have hapart : (1 : ℚ) ≤ |(m : ℚ) - n| := by
    exact_mod_cast Int.one_le_abs (sub_ne_zero.mpr h)
  have := abs_sub_le (m : ℚ) x n
  rw [abs_sub_comm (m : ℚ) x] at this
  linarith

/-- An integer that is no more than one half away is nearest. -/
theorem of_le_half (hhalf : |x - n| ≤ 1 / 2) (heven : |x - n| = 1 / 2 → Even n) :
    NearestEven x n := by
  refine ⟨fun m => ?_, fun m hm htie => heven ?_⟩
  · rcases eq_or_ne m n with rfl | hm
    · exact le_rfl
    · linarith [one_le_distances x hm]
  · linarith [one_le_distances x hm]

/-- The nearest integer is no more than one half away. -/
theorem le_half (h : NearestEven x n) : |x - n| ≤ 1 / 2 := by
  have hfloor := Int.floor_le x
  have hceil := Int.lt_floor_add_one x
  rcases le_total (x - ⌊x⌋) (1 / 2) with hlow | hhigh
  · calc |x - n| ≤ |x - ⌊x⌋| := h.nearest ⌊x⌋
      _ = x - ⌊x⌋ := abs_of_nonneg (by linarith)
      _ ≤ 1 / 2 := hlow
  · calc |x - n| ≤ |x - (⌊x⌋ + 1 : ℤ)| := h.nearest (⌊x⌋ + 1)
      _ = (⌊x⌋ + 1 : ℤ) - x := by rw [abs_sub_comm, abs_of_nonneg]; push_cast; linarith
      _ ≤ 1 / 2 := by push_cast; linarith

/-- There is one nearest integer only: two would be neighbours, and both of them even. -/
theorem unique (hm : NearestEven x m) (hn : NearestEven x n) : m = n := by
  by_contra hne
  have hsame : |x - m| = |x - n| := le_antisymm (hm.nearest n) (hn.nearest m)
  have hmeven : Even m := hm.even n (Ne.symm hne) hsame.symm
  have hneven : Even n := hn.even m hne hsame
  have hapart : |(m : ℚ) - n| ≤ 1 := by
    have := abs_sub_le (m : ℚ) x n
    rw [abs_sub_comm (m : ℚ) x] at this
    linarith [hm.le_half, hn.le_half]
  have hneighbours : |m - n| ≤ 1 := by exact_mod_cast hapart
  have hdistance : Even (m - n) := hmeven.sub hneven
  obtain ⟨k, hk⟩ := hdistance
  rw [abs_le] at hneighbours
  omega

end NearestEven

/-! ## Rounding a quotient of integers -/

/-- What is cut off from a quotient is smaller than the divisor and lies on the side of the
numerator. -/
theorem tmod_bounds (numerator : ℤ) {denominator : ℤ} (h : denominator ≠ 0) :
    (numerator.tmod denominator).natAbs < denominator.natAbs ∧
      (0 ≤ numerator → 0 ≤ numerator.tmod denominator) ∧
      (numerator < 0 → numerator.tmod denominator ≤ 0) := by
  refine ⟨?_, Int.tmod_nonneg denominator, fun hneg => ?_⟩
  · rw [Int.natAbs_tmod]
    exact Nat.mod_lt _ (Int.natAbs_pos.mpr h)
  · have := Int.tmod_nonneg denominator (Int.neg_nonneg_of_nonpos hneg.le)
    rw [Int.neg_tmod] at this
    omega

/-- After rounding, twice the rest is no more than the divisor, and the rounded quotient is even if
it is just as much. -/
theorem roundQuotient_rest (numerator : ℤ) {denominator : ℤ} (h : denominator ≠ 0) :
    2 * |numerator - denominator * roundQuotient numerator denominator| ≤ |denominator| ∧
      (2 * |numerator - denominator * roundQuotient numerator denominator| = |denominator| →
        Even (roundQuotient numerator denominator)) := by
  obtain ⟨hsmall, hpos, hneg⟩ := tmod_bounds numerator h
  have hsplit := Int.tmod_add_mul_tdiv numerator denominator
  simp only [roundQuotient, Int.even_iff, Int.abs_eq_natAbs]
  generalize numerator.tmod denominator = rest at *
  generalize numerator.tdiv denominator = quotient at *
  split_ifs with hlarge hsigns
  -- moved by one away from zero, what is left is what the rest lacked to the whole divisor
  · have : numerator - denominator * (quotient + 1) = rest - denominator := by linarith
    rw [this]
    omega
  · have : numerator - denominator * (quotient + -1) = rest + denominator := by linarith
    rw [this]
    omega
  · have : numerator - denominator * quotient = rest := by linarith
    rw [this]
    omega

/-- A quotient of integers is rounded to the nearest integer. -/
theorem roundQuotient_nearestEven (numerator : ℤ) {denominator : ℤ} (h : denominator ≠ 0) :
    NearestEven ((numerator : ℚ) / denominator) (roundQuotient numerator denominator) := by
  obtain ⟨hrest, heven⟩ := roundQuotient_rest numerator h
  generalize roundQuotient numerator denominator = n at *
  have hq : (denominator : ℚ) ≠ 0 := Int.cast_ne_zero.mpr h
  have hpos : 0 < |(denominator : ℚ)| := abs_pos.mpr hq
  -- the distance to the rounded quotient is the rest as a part of the divisor
  have hdistance : |(numerator : ℚ) / denominator - n| =
      |(numerator : ℚ) - denominator * n| / |(denominator : ℚ)| := by
    rw [← abs_div, sub_div, mul_div_cancel_left₀ _ hq]
  apply NearestEven.of_le_half
  · rw [hdistance, div_le_iff₀ hpos]
    have : (2 : ℚ) * |(numerator : ℚ) - denominator * n| ≤ |(denominator : ℚ)| := by
      exact_mod_cast hrest
    linarith
  · intro hhalf
    rw [hdistance, div_eq_iff hpos.ne'] at hhalf
    apply heven
    have : (2 : ℚ) * |(numerator : ℚ) - denominator * n| = |(denominator : ℚ)| := by linarith
    exact_mod_cast this

/-! ## Quotients of decimals -/

/-- Within its limit, moving the point is multiplication with a power of ten. -/
theorem divisionPower_eq {places : ℕ} (h : places ≤ divisionPlaces) :
    divisionPower places = 10 ^ places := by
  rw [divisionPower, Nat.min_eq_left h, tenTo, Nat.pow_eq]

/-- Numerator and denominator of the rounded quotient make up the exact quotient, whichever way
the point is moved. -/
theorem scaled_quotient_eq (a : Decimal) {b : Decimal}
    (hscale : |b.scale| ≤ (divisionPlaces : ℤ)) :
    ((a.unscaled * divisionPower b.scale.toNat : ℤ) : ℚ) /
        ((b.unscaled * divisionPower (-b.scale).toNat : ℤ) : ℚ) =
      a.unscaled * (10 : ℚ) ^ b.scale / b.unscaled := by
  rw [abs_le] at hscale
  rw [divisionPower_eq (by omega), divisionPower_eq (by omega)]
  push_cast
  rcases Int.le_total 0 b.scale with hs | hs
  · obtain ⟨n, hn⟩ := Int.eq_ofNat_of_zero_le hs
    have : (-b.scale).toNat = 0 := by omega
    rw [this, hn, pow_zero, mul_one, Int.toNat_natCast, zpow_natCast]
  · obtain ⟨n, hn⟩ := Int.eq_ofNat_of_zero_le (Int.neg_nonneg_of_nonpos hs)
    have : b.scale.toNat = 0 := by omega
    rw [this, hn, pow_zero, mul_one, Int.toNat_natCast, show b.scale = -(n : ℤ) by omega,
      zpow_neg, zpow_natCast, ← div_eq_mul_inv, div_div, mul_comm (b.unscaled : ℚ)]

/-- A quotient has the scale of the dividend, and its digits are the one integer nearest to the
exact quotient at that scale, the even one of two that are equally near. -/
theorem divide_exactly_rounded (a b : Decimal) (hzero : b.unscaled ≠ 0)
    (hscale : |b.scale| ≤ 4294967295) :
    (a.divide b).scale = a.scale ∧
      ∀ n : ℤ, NearestEven (a.unscaled * (10 : ℚ) ^ b.scale / b.unscaled) n ↔
        n = (a.divide b).unscaled := by
  have hpower : (divisionPower (-b.scale).toNat : ℤ) ≠ 0 := by
    rw [abs_le] at hscale
    have hplaces : (-b.scale).toNat ≤ divisionPlaces := by
      rw [divisionPlaces]
      omega
    rw [divisionPower_eq hplaces]
    positivity
  have hround := roundQuotient_nearestEven (a.unscaled * divisionPower b.scale.toNat)
    (mul_ne_zero hzero hpower)
  rw [scaled_quotient_eq a hscale] at hround
  refine ⟨rfl, fun n => ⟨fun hn => hn.unique hround, ?_⟩⟩
  rintro rfl
  exact hround

/-- `1.5 / -10` lies half way between `-0.1` and `-0.2`, of which the second has even digits. -/
theorem negative_half_rounded :
    (⟨-1, -1⟩ : Decimal).unscaled ≠ 0 ∧ |(⟨-1, -1⟩ : Decimal).scale| ≤ 4294967295 ∧
      divide ⟨15, 1⟩ ⟨-1, -1⟩ = ⟨-2, 1⟩ ∧
      ∀ n : ℤ, NearestEven ((15 : ℤ) * (10 : ℚ) ^ (-1 : ℤ) / (-1 : ℤ)) n ↔ n = -2 := by
  have hdivide : divide ⟨15, 1⟩ ⟨-1, -1⟩ = ⟨-2, 1⟩ := by decide
  have hrounded := divide_exactly_rounded ⟨15, 1⟩ ⟨-1, -1⟩ (by decide) (by decide)
  rw [hdivide] at hrounded
  exact ⟨by decide, by decide, hdivide, hrounded.2⟩

end TeachLang.Decimal
