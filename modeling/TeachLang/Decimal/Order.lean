import TeachLang.Decimal

/-!
# The order of decimals

Decimals compare as exact numbers, however far apart their scales lie.

* `compare_eq`: the order is that of the unscaled integers at a common scale.
* `sameValue_eq_isEq`: two have the same value if neither is the larger.

Both are defined without the common scale. That this changes nothing rests on one fact
(`compare_mul_eq`): against an integer `y`, all factors greater than `y` decide alike.
-/

namespace TeachLang.Decimal

theorem tenTo_le_tenTo {m n : Nat} (h : m ≤ n) : tenTo m ≤ tenTo n :=
  Nat.pow_le_pow_right (by decide) h

/-- A power of ten at least is the same power of two. -/
theorem natAbs_lt_tenTo_reach (d : Decimal) : d.unscaled.natAbs < tenTo d.reach :=
  Nat.lt_of_lt_of_le Nat.lt_log2_self (Nat.pow_le_pow_left (by decide) d.reach)

/-- Zero is no special case of alignment. -/
theorem aligned_eq (a b : Decimal) :
    aligned a b = a.unscaled * tenTo (b.scale - a.scale).toNat := by
  unfold aligned isZero
  split <;> simp_all

/-- Multiplied by more than the size of `y`, an integer other than zero lies beyond `y` on its own
side of zero. -/
theorem mul_beyond {x y : Int} {p : Nat} (h : y.natAbs < p) :
    (x < 0 → x * p < y) ∧ (0 < x → y < x * p) := by
  constructor
  · intro hx
    have : x * p ≤ -1 * p := Int.mul_le_mul_of_nonneg_right (by omega) (by omega)
    omega
  · intro hx
    have : 1 * p ≤ x * p := Int.mul_le_mul_of_nonneg_right (by omega) (by omega)
    omega

/-- Multiplied by more than the size of `y`, an integer compares with `y` as it does after any other
such multiplication. -/
theorem compare_mul_eq {x y : Int} {p q : Nat} (hp : y.natAbs < p) (hq : y.natAbs < q) :
    Ord.compare (x * p) y = Ord.compare (x * q) y := by
  rcases Int.lt_trichotomy x 0 with hx | rfl | hx
  · rw [Int.compare_eq_lt.2 ((mul_beyond hp).1 hx), Int.compare_eq_lt.2 ((mul_beyond hq).1 hx)]
  · simp
  · rw [Int.compare_eq_gt.2 ((mul_beyond hp).2 hx), Int.compare_eq_gt.2 ((mul_beyond hq).2 hx)]

/-- With no places to add, the comparand is the unscaled integer. -/
theorem comparand_eq_unscaled {a b : Decimal} (h : b.scale ≤ a.scale) :
    comparand a b = a.unscaled := by
  have : (b.scale - a.scale).toNat = 0 := by omega
  simp [comparand, this, tenTo]

/-- With no places to add, the aligned integer is the unscaled one. -/
theorem aligned_eq_unscaled {a b : Decimal} (h : b.scale ≤ a.scale) :
    aligned a b = a.unscaled := by
  have : (b.scale - a.scale).toNat = 0 := by omega
  simp [aligned_eq, this, tenTo]

/-- Against the other unscaled integer, the comparand compares as the aligned integer does. -/
theorem compare_comparand (a b : Decimal) :
    Ord.compare (comparand a b) b.unscaled = Ord.compare (aligned a b) b.unscaled := by
  rw [comparand, aligned_eq]
  rcases Nat.le_total (b.scale - a.scale).toNat b.reach with hn | hn
  · rw [Nat.min_eq_left hn]
  · rw [Nat.min_eq_right hn]
    exact compare_mul_eq b.natAbs_lt_tenTo_reach
      (Nat.lt_of_lt_of_le b.natAbs_lt_tenTo_reach (tenTo_le_tenTo hn))

/-- Comparison turns around with its operands. -/
theorem compare_swap (a b : Decimal) : (a.compare b).swap = b.compare a :=
  Int.compare_swap _ _

/-- Decimals compare as their unscaled integers do at a common scale. -/
theorem compare_eq (a b : Decimal) :
    a.compare b = Ord.compare (aligned a b) (aligned b a) := by
  rcases Int.le_total a.scale b.scale with h | h
  · rw [compare, comparand_eq_unscaled h, aligned_eq_unscaled h, compare_comparand]
  · rw [← compare_swap, compare, comparand_eq_unscaled h, aligned_eq_unscaled h, compare_comparand,
      Int.compare_swap]

/-- Decimals have the same value if neither is the larger. -/
theorem sameValue_eq_isEq (a b : Decimal) : a.sameValue b = (a.compare b).isEq := by
  rw [Bool.eq_iff_iff, sameValue, compare, beq_iff_eq, Ordering.isEq_iff_eq_eq, Int.compare_eq_eq]

end TeachLang.Decimal
