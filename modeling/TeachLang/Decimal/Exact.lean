import Mathlib.Algebra.Order.Field.Rat
import Mathlib.Data.Rat.Cast.Order
import Mathlib.Tactic.Ring
import TeachLang.Decimal.Order
import TeachLang.Decimal.Written

/-!
# What decimals stand for

`Decimal.toRat` is the number that a decimal stands for. The rules that the operations follow are
about this number and the scale, and a decimal is known by both (`eq_iff`).

* Sums, differences and products are exact (`toRat_add`, `toRat_sub`, `toRat_mul`).
* A sum or difference has the larger of the two scales, a product their sum (`scale_add`,
  `scale_sub`, `scale_mul`), but for an added zero and a factor of one. With an added zero the scale
  is still one between those of the operands (`le_scale_add`, `scale_add_le`).
* So sums and differences of decimals whose scales fit into 64 bits have scales that fit.
* Decimals compare as the numbers do.
-/

namespace TeachLang.Decimal

variable {a b : Decimal}

/-- The number that a decimal stands for. -/
def toRat (d : Decimal) : ℚ := d.unscaled * 10 ^ (-d.scale)

/-- A decimal is known by its number and its scale. -/
theorem eq_iff : a = b ↔ a.toRat = b.toRat ∧ a.scale = b.scale := by
  refine ⟨by rintro rfl; exact ⟨rfl, rfl⟩, fun ⟨hvalue, hscale⟩ => ?_⟩
  obtain ⟨m, s⟩ := a
  obtain ⟨n, t⟩ := b
  obtain rfl : s = t := hscale
  have hpower : (10 : ℚ) ^ (-s) ≠ 0 := zpow_ne_zero _ (by norm_num)
  have hunscaled : (m : ℚ) = n := mul_right_cancel₀ hpower hvalue
  rw [Int.cast_injective hunscaled]

/-! ## Scales -/

/-- At a common scale the unscaled integers are the numbers, moved by the same places. -/
theorem cast_aligned (a b : Decimal) : (aligned a b : ℚ) = a.toRat * 10 ^ max a.scale b.scale := by
  have hplaces : ((b.scale - a.scale).toNat : ℤ) = -a.scale + max a.scale b.scale := by omega
  rw [aligned_eq, tenTo, Nat.pow_eq, toRat, mul_assoc, ← zpow_add₀ (by norm_num), ← hplaces,
    zpow_natCast]
  push_cast
  rfl

/-- Places that are added at the end do not change the number. -/
theorem toRat_extend (d : Decimal) (places : Nat) : (d.extend places).toRat = d.toRat := by
  have hscale : -d.scale = places + -(d.scale + places) := by omega
  rw [toRat, toRat, extend, hscale, zpow_add₀ (by norm_num), zpow_natCast, tenTo, Nat.pow_eq]
  push_cast
  ring

theorem toRat_eq_zero (h : a.isZero = true) : a.toRat = 0 := by
  rw [toRat, beq_iff_eq.mp h, Int.cast_zero, zero_mul]

/-- An unscaled integer that is a number moved by as many places as the scale has stands for it. -/
theorem toRat_of_cast {n : Int} {x : ℚ} {scale : Int} (h : (n : ℚ) = x * 10 ^ scale) :
    toRat ⟨n, scale⟩ = x := by
  rw [toRat, h, mul_assoc, ← zpow_add₀ (by norm_num), Int.add_right_neg, zpow_zero, mul_one]

/-! ## Sums and differences -/

/-- Sums are exact. -/
theorem toRat_add (a b : Decimal) : (a.add b).toRat = a.toRat + b.toRat := by
  rw [add]
  split
  · next hb => rw [toRat_extend, toRat_eq_zero hb, add_zero]
  split
  · next ha => rw [toRat_extend, toRat_eq_zero ha, zero_add]
  · refine toRat_of_cast ?_
    rw [Int.cast_add, cast_aligned, cast_aligned, max_comm b.scale, add_mul]

/-- Differences are exact. -/
theorem toRat_sub (a b : Decimal) : (a.sub b).toRat = a.toRat - b.toRat := by
  refine toRat_of_cast ?_
  rw [Int.cast_sub, cast_aligned, cast_aligned, max_comm b.scale, sub_mul]

/-- A sum shows as many places as the operand that has more of them. -/
theorem scale_add (ha : a.isZero = false) (hb : b.isZero = false) :
    (a.add b).scale = max a.scale b.scale := by
  rw [add, ha, hb]
  rfl

theorem scale_sub (a b : Decimal) : (a.sub b).scale = max a.scale b.scale := rfl

/-- Whatever is added, the scale of a sum is not above both scales. -/
theorem scale_add_le (a b : Decimal) : (a.add b).scale ≤ max a.scale b.scale := by
  rw [add]
  split
  · change a.scale + _ ≤ _
    omega
  split
  · change b.scale + _ ≤ _
    omega
  · exact le_rfl

/-- Nor is it below both scales, even if zero is added. -/
theorem le_scale_add (a b : Decimal) : min a.scale b.scale ≤ (a.add b).scale := by
  rw [add]
  split
  · change _ ≤ a.scale + _
    omega
  split
  · change _ ≤ b.scale + _
    omega
  · change _ ≤ max a.scale b.scale
    omega

theorem scaleFits_iff {scale : Int} :
    scaleFits scale = true ↔ -9223372036854775808 ≤ scale ∧ scale ≤ 9223372036854775807 := by
  rw [scaleFits, Bool.and_eq_true, decide_eq_true_iff, decide_eq_true_iff]

/-- A sum is at a scale that can be kept. -/
theorem scaleFits_add (ha : scaleFits a.scale = true) (hb : scaleFits b.scale = true) :
    scaleFits (a.add b).scale = true := by
  have hle := scale_add_le a b
  have hge := le_scale_add a b
  rw [scaleFits_iff] at *
  omega

/-- So is a difference. -/
theorem scaleFits_sub (ha : scaleFits a.scale = true) (hb : scaleFits b.scale = true) :
    scaleFits (a.sub b).scale = true := by
  rw [scale_sub]
  rw [scaleFits_iff] at *
  omega

/-! ## Products -/

/-- Without the zeros at its end a decimal stands for the same number. -/
theorem toRat_normalize (d : Decimal) : d.normalize.toRat = d.toRat := by
  fun_induction normalize d with
  | case1 d hzero => rw [toRat, toRat, hzero, Int.cast_zero, zero_mul, zero_mul]
  | case2 d hzero hten ih =>
    have hunscaled : d.unscaled = d.unscaled / 10 * 10 := by omega
    have hscale : -(d.scale - 1) = -d.scale + 1 := by omega
    have hcast : (d.unscaled : ℚ) = (d.unscaled / 10 : ℤ) * 10 := by exact_mod_cast hunscaled
    rw [ih, toRat, toRat, hcast, hscale, zpow_add₀ (by norm_num), zpow_one]
    ring
  | case3 d hzero hten => rfl

/-- A factor that is recognised as one is one. -/
theorem toRat_eq_one (h : a.isUnit = true) : a.toRat = 1 := by
  simp only [isUnit, Bool.and_eq_true, decide_eq_true_eq, beq_iff_eq] at h
  obtain ⟨⟨hscale, -⟩, hunscaled⟩ := h
  have hplaces : (a.scale.toNat : ℤ) = a.scale := Int.toNat_of_nonneg hscale
  change toRat ⟨a.unscaled, a.scale⟩ = 1
  refine toRat_of_cast ?_
  rw [one_mul, hunscaled, ← hplaces, zpow_natCast, tenTo, Nat.pow_eq]
  push_cast
  rfl

/-- Products are exact. -/
theorem toRat_mul (a b : Decimal) : (a.mul b).toRat = a.toRat * b.toRat := by
  rw [mul]
  split
  · next ha => rw [toRat_normalize, toRat_eq_one ha, one_mul]
  split
  · next hb => rw [toRat_normalize, toRat_eq_one hb, mul_one]
  · rw [toRat, toRat, toRat, neg_add, zpow_add₀ (by norm_num)]
    push_cast
    ring

/-- A product shows the places of both factors. -/
theorem scale_mul (ha : a.isUnit = false) (hb : b.isUnit = false) :
    (a.mul b).scale = a.scale + b.scale := by
  rw [mul, ha, hb]
  rfl

/-! ## Order -/

/-- Decimals compare as the numbers do. -/
theorem compare_eq_cmp (a b : Decimal) : a.compare b = cmp a.toRat b.toRat := by
  have hpos : (0 : ℚ) < 10 ^ max a.scale b.scale := zpow_pos (by norm_num) _
  rw [compare_eq, ← cmp_eq_compare, ← (Int.cast_strictMono (R := ℚ)).cmp_map_eq, cast_aligned,
    cast_aligned, max_comm b.scale, cmp_mul_pos_right hpos]

/-- Decimals have the same value if they stand for the same number. -/
theorem sameValue_iff : a.sameValue b = true ↔ a.toRat = b.toRat := by
  rw [sameValue_eq_isEq, Ordering.isEq_iff_eq_eq, compare_eq_cmp, cmp_eq_eq_iff]

end TeachLang.Decimal
