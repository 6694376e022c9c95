import Mathlib.Data.String.Basic
import TeachLang.Proofs.Contents

/-!
# Coherence of the comparisons

`==` and `!=` take all values, `<`, `<=`, `>` and `>=` those of one form with an order. Equality and
order are computed apart from each other, and for decimals they even look at different things.

* `Form.Keyed` gives every value with an order a key in a linear order, so that the values of a form
  compare as their keys do.
* `Value.comparisons_coherent` says how the six comparisons go together: equality is an equivalence
  relation, the order is total, and of values that are neither less nor greater only decimals with
  different scales are unequal.
-/

namespace TeachLang

/-- The forms of values that have an order. -/
inductive Form where
  | integer
  | decimal
  | character
  | string

namespace Form

/-- What the values of a form are compared by. -/
abbrev Key : Form → Type
  | integer => ℤ
  | decimal => ℚ
  | character => ℕ
  | string => String

instance : (form : Form) → LinearOrder form.Key
  | integer => Int.instLinearOrder
  | decimal => Rat.linearOrder
  | character => Nat.instLinearOrder
  | string => String.instLinearOrder

/-- A value has a form and a key in the order of the form. -/
inductive Keyed : (form : Form) → Value → form.Key → Prop
  | integer (ty : Ty) (n : Int) : Keyed integer (.atom ty (.integer n)) n
  | decimal (ty : Ty) (d : Decimal) : Keyed decimal (.atom ty (.decimal d)) d.toRat
  | character (ty : Ty) (c : Char) : Keyed character (.atom ty (.character c)) c.toNat
  | string (ty : Ty) (s : String) : Keyed string (.atom ty (.string s)) s

end Form

namespace Value

open Form (Keyed)

variable {a b c : Value} {position : Position}

/-- Texts are compared in the order of texts. -/
theorem compareText_eq_cmp (s t : String) : compareText s t = cmp s t := by
  rw [compareText]
  rcases lt_trichotomy s t with h | rfl | h
  · rw [if_pos h, h.cmp_eq_lt]
  · rw [if_neg (lt_irrefl s), if_pos rfl, cmp_self_eq_eq]
  · rw [if_neg h.not_gt, if_neg h.ne', h.cmp_eq_gt]

/-- Values of one form compare as their keys do. -/
theorem order?_eq {form : Form} {k l : form.Key} (ha : Keyed form a k) (hb : Keyed form b l) :
    order? a b = some (cmp k l) := by
  match ha, hb with
  | .integer s m, .integer t n => exact congrArg some (cmp_eq_compare m n).symm
  | .decimal s x, .decimal t y => exact congrArg some (Decimal.compare_eq_cmp x y)
  | .character s x, .character t y => exact congrArg some (cmp_eq_compare x.toNat y.toNat).symm
  | .string s x, .string t y => exact congrArg some (compareText_eq_cmp x y)

/-- A value has one form and one key. -/
theorem key_unique {f g : Form} {k : f.Key} {l : g.Key} (h : Keyed f a k) (h' : Keyed g a l) :
    ∃ hform : f = g, hform ▸ k = l := by
  cases h <;> cases h' <;> exact ⟨rfl, rfl⟩

/-- Two values of one form that has an order. -/
inductive Orderable : Value → Value → Prop
  | integers (s t : Ty) (m n : Int) : Orderable (atom s (.integer m)) (atom t (.integer n))
  | decimals (s t : Ty) (x y : Decimal) : Orderable (atom s (.decimal x)) (atom t (.decimal y))
  | characters (s t : Ty) (x y : Char) : Orderable (atom s (.character x)) (atom t (.character y))
  | strings (s t : Ty) (x y : String) : Orderable (atom s (.string x)) (atom t (.string y))

theorem orderable_iff_keyed :
    Orderable a b ↔ ∃ (form : Form) (k l : form.Key), Keyed form a k ∧ Keyed form b l := by
  constructor
  · rintro (⟨s, t, m, n⟩ | ⟨s, t, x, y⟩ | ⟨s, t, x, y⟩ | ⟨s, t, x, y⟩)
    · exact ⟨.integer, m, n, .integer s m, .integer t n⟩
    · exact ⟨.decimal, _, _, .decimal s x, .decimal t y⟩
    · exact ⟨.character, _, _, .character s x, .character t y⟩
    · exact ⟨.string, x, y, .string s x, .string t y⟩
  · rintro ⟨form, k, l, ha, hb⟩
    cases ha <;> cases hb <;> constructor

theorem isSome_order?_iff : (order? a b).isSome ↔ Orderable a b := by
  constructor
  · unfold order?
    split <;> first | (intro; constructor) | exact nofun
  · intro h
    obtain ⟨form, k, l, ha, hb⟩ := orderable_iff_keyed.mp h
    rw [order?_eq ha hb]
    rfl

/-- What is asked about the order of two operands. -/
def orderTest : Operator → Option (Ordering → Bool)
  | .less => some Ordering.isLT
  | .lessEquals => some Ordering.isLE
  | .greater => some Ordering.isGT
  | .greaterEquals => some Ordering.isGE
  | _ => none

/-- An operator holds of two operands. -/
def Holds (position : Position) (operator : Operator) (a b : Value) : Prop :=
  apply operator a b position = .ok (boolean true)

theorem apply_eq_ordered {operator : Operator} {test : Ordering → Bool}
    (h : orderTest operator = some test) :
    apply operator a b position = ordered a b position test := by
  cases operator <;> cases h <;> rfl

/-- Operands of one form are asked about the order of their keys. -/
theorem apply_keyed {operator : Operator} {test : Ordering → Bool} {form : Form} {k l : form.Key}
    (h : orderTest operator = some test) (ha : Keyed form a k) (hb : Keyed form b l) :
    apply operator a b position = .ok (boolean (test (cmp k l))) := by
  rw [apply_eq_ordered h, ordered, order?_eq ha hb]

/-- An order is only told of operands of one form. -/
theorem orderable_of_ok {operator : Operator} {test : Ordering → Bool} {value : Value}
    (h : orderTest operator = some test) (hok : apply operator a b position = .ok value) :
    Orderable a b := by
  rw [apply_eq_ordered h, ordered] at hok
  rw [← isSome_order?_iff]
  cases horder : order? a b with
  | none =>
    rw [horder] at hok
    cases hok
  | some order => rfl

section Keys

variable {form : Form} {k l : form.Key} (ha : Keyed form a k) (hb : Keyed form b l)
include ha hb

theorem less_iff_keys : Holds position .less a b ↔ k < l := by
  rw [Holds, apply_keyed rfl ha hb, ok_boolean_iff, Ordering.isLT_iff_eq_lt, cmp_eq_lt_iff]

theorem greater_iff_keys : Holds position .greater a b ↔ l < k := by
  rw [Holds, apply_keyed rfl ha hb, ok_boolean_iff, Ordering.isGT_iff_eq_gt, cmp_eq_gt_iff]

theorem lessEquals_iff_keys : Holds position .lessEquals a b ↔ k ≤ l := by
  rw [Holds, apply_keyed rfl ha hb, ok_boolean_iff, Ordering.isLE_iff_ne_gt, ← not_lt,
    ← cmp_eq_gt_iff]

theorem greaterEquals_iff_keys : Holds position .greaterEquals a b ↔ l ≤ k := by
  rw [Holds, apply_keyed rfl ha hb, ok_boolean_iff, Ordering.isGE_iff_ne_lt, ← not_lt,
    ← cmp_eq_lt_iff]

end Keys

/-- A constant is tagged with the type of its form. -/
def WellTagged : Value → Prop
  | atom ty literal => ty.same literal.ty
  | _ => True

/-- Constants of one form have one type, and they are the same if their keys are. -/
theorem sameLiteral_iff_key {s t : Ty} {x y : Literal} {form : Form} {k l : form.Key}
    (ha : Keyed form (atom s x) k) (hb : Keyed form (atom t y) l) :
    x.ty = y.ty ∧ (sameLiteral x y = true ↔ k = l) := by
  match ha, hb with
  | .integer _ m, .integer _ n => exact ⟨rfl, by simp [sameLiteral]⟩
  | .decimal _ x, .decimal _ y => exact ⟨rfl, Decimal.sameValue_iff⟩
  | .character _ x, .character _ y => exact ⟨rfl, by simp [sameLiteral, Char.toNat_inj]⟩
  | .string _ x, .string _ y => exact ⟨rfl, by simp [sameLiteral]⟩

theorem exists_atom {form : Form} {k : form.Key} (h : Keyed form a k) :
    ∃ ty literal, a = atom ty literal := by
  cases h <;> exact ⟨_, _, rfl⟩

/-- Equal operands of one form have one key. -/
theorem key_eq_of_equals {form : Form} {k l : form.Key} (ha : Keyed form a k)
    (hb : Keyed form b l) (h : equals a b = true) : k = l := by
  obtain ⟨s, x, rfl⟩ := exists_atom ha
  obtain ⟨t, y, rfl⟩ := exists_atom hb
  refine (sameLiteral_iff_key ha hb).2.mp ?_
  rcases operand_cases (equals_iff.mp h) with hcontent | ⟨s', t', d, hx, hy⟩
  · exact (atom_content_eq_iff.mp hcontent).2
  · cases hx
    cases hy
    exact Decimal.sameValue_iff.mpr rfl

/-- Operands of one key have one content, if they have the type of their form. -/
theorem content_eq_of_key {form : Form} {k : form.Key} (ha : Keyed form a k)
    (hb : Keyed form b k) (hs : WellTagged a) (ht : WellTagged b) : a.content = b.content := by
  obtain ⟨s, x, rfl⟩ := exists_atom ha
  obtain ⟨t, y, rfl⟩ := exists_atom hb
  obtain ⟨hty, hsame⟩ := sameLiteral_iff_key ha hb
  refine atom_content_eq_iff.mpr ⟨?_, hsame.mpr rfl⟩
  rw [WellTagged, Ty.same, beq_iff_eq] at hs ht
  rw [Ty.same, beq_iff_eq, hs, hty, ht]

/-- One of three statements holds and the other two do not. -/
def ExactlyOne (p q r : Prop) : Prop :=
  (p ∧ ¬ q ∧ ¬ r) ∨ (¬ p ∧ q ∧ ¬ r) ∨ (¬ p ∧ ¬ q ∧ r)

/-- How the six comparisons go together. -/
structure Coherent (position : Position) (a b c : Value) : Prop where
  /-- every value is equal to itself -/
  equals_refl : Holds position .equals a a
  /-- equality goes both ways -/
  equals_symm : Holds position .equals a b → Holds position .equals b a
  /-- equality goes on from value to value -/
  equals_trans : Holds position .equals a b → Holds position .equals b c →
    Holds position .equals a c
  /-- one of `==` and `!=` is true and the other false -/
  notEquals : ∃ t, apply .equals a b position = .ok (boolean t) ∧
    apply .notEquals a b position = .ok (boolean !t)
  /-- two whole numbers, decimals, characters or texts can be ordered, and nothing else -/
  less_ok_iff : (∃ value, apply .less a b position = .ok value) ↔ Orderable a b
  /-- then all questions about their order are answered, whichever of them comes first -/
  answered : Orderable a b → ∀ operator ∈ [Operator.less, .lessEquals, .greater, .greaterEquals],
    (∃ t, apply operator a b position = .ok (boolean t)) ∧
      ∃ t, apply operator b a position = .ok (boolean t)
  /-- `>` is `<` the other way around -/
  greater_iff : Orderable a b → (Holds position .greater a b ↔ Holds position .less b a)
  /-- what is not greater is less or equal -/
  lessEquals_iff : Orderable a b → (Holds position .lessEquals a b ↔ ¬ Holds position .less b a)
  /-- `>=` is `<=` the other way around -/
  greaterEquals_iff : Orderable a b →
    (Holds position .greaterEquals a b ↔ Holds position .lessEquals b a)
  /-- one of two values is the less, or neither is -/
  trichotomy : Orderable a b → ExactlyOne (Holds position .less a b) (Holds position .less b a)
    (Holds position .lessEquals a b ∧ Holds position .lessEquals b a)
  /-- the order goes on from value to value -/
  less_trans : Holds position .less a b → Holds position .less b c → Holds position .less a c
  /-- of equal values neither is the less -/
  lessEquals_of_equals : Orderable a b → Holds position .equals a b →
    Holds position .lessEquals a b ∧ Holds position .lessEquals b a
  /-- of values of which neither is the less, only decimals can be unequal, which they are if their
  scales are -/
  equals_iff_sameScale : WellTagged a → WellTagged b → Holds position .lessEquals a b →
    Holds position .lessEquals b a → (Holds position .equals a b ↔ SameScale a b)

theorem holds_equals_iff : Holds position .equals a b ↔ a.operand = b.operand := by
  rw [Holds, apply, ok_boolean_iff, equals_iff]

theorem keyed_of_holds {operator : Operator} {test : Ordering → Bool}
    (h : orderTest operator = some test) (hholds : Holds position operator a b) :
    ∃ (form : Form) (k l : form.Key), Keyed form a k ∧ Keyed form b l :=
  orderable_iff_keyed.mp (orderable_of_ok h hholds)

theorem less_trans (hab : Holds position .less a b) (hbc : Holds position .less b c) :
    Holds position .less a c := by
  obtain ⟨form, k, l, ha, hb⟩ := keyed_of_holds rfl hab
  obtain ⟨form', l', m, hb', hc⟩ := keyed_of_holds rfl hbc
  obtain ⟨rfl, rfl⟩ := key_unique hb hb'
  rw [less_iff_keys ha hb] at hab
  rw [less_iff_keys hb hc] at hbc
  exact (less_iff_keys ha hc).mpr (hab.trans hbc)

/-- **Comparisons are coherent**. -/
theorem comparisons_coherent (position : Position) (a b c : Value) : Coherent position a b c where
  equals_refl := holds_equals_iff.mpr rfl
  equals_symm h := holds_equals_iff.mpr (holds_equals_iff.mp h).symm
  equals_trans h h' := holds_equals_iff.mpr ((holds_equals_iff.mp h).trans (holds_equals_iff.mp h'))
  notEquals := ⟨equals a b, rfl, rfl⟩
  less_ok_iff := by
    refine ⟨fun ⟨value, hok⟩ => orderable_of_ok rfl hok, fun h => ?_⟩
    obtain ⟨form, k, l, ha, hb⟩ := orderable_iff_keyed.mp h
    exact ⟨_, apply_keyed rfl ha hb⟩
  answered h := by
    obtain ⟨form, k, l, ha, hb⟩ := orderable_iff_keyed.mp h
    have hboth : ∀ {operator test}, orderTest operator = some test →
        (∃ t, apply operator a b position = .ok (boolean t)) ∧
          ∃ t, apply operator b a position = .ok (boolean t) :=
      fun htest => ⟨⟨_, apply_keyed htest ha hb⟩, ⟨_, apply_keyed htest hb ha⟩⟩
    simp only [List.forall_mem_cons, List.not_mem_nil, false_imp_iff, implies_true, and_true]
    exact ⟨hboth rfl, hboth rfl, hboth rfl, hboth rfl⟩
  greater_iff h := by
    obtain ⟨form, k, l, ha, hb⟩ := orderable_iff_keyed.mp h
    rw [greater_iff_keys ha hb, less_iff_keys hb ha]
  lessEquals_iff h := by
    obtain ⟨form, k, l, ha, hb⟩ := orderable_iff_keyed.mp h
    rw [lessEquals_iff_keys ha hb, less_iff_keys hb ha, not_lt]
  greaterEquals_iff h := by
    obtain ⟨form, k, l, ha, hb⟩ := orderable_iff_keyed.mp h
    rw [greaterEquals_iff_keys ha hb, lessEquals_iff_keys hb ha]
  trichotomy h := by
    obtain ⟨form, k, l, ha, hb⟩ := orderable_iff_keyed.mp h
    rw [less_iff_keys ha hb, less_iff_keys hb ha, lessEquals_iff_keys ha hb,
      lessEquals_iff_keys hb ha]
    rcases lt_trichotomy k l with hlt | rfl | hgt
    · exact .inl ⟨hlt, hlt.not_gt, fun h => hlt.not_ge h.2⟩
    · exact .inr (.inr ⟨lt_irrefl k, lt_irrefl k, le_rfl, le_rfl⟩)
    · exact .inr (.inl ⟨hgt.not_gt, hgt, fun h => hgt.not_ge h.1⟩)
  less_trans := less_trans
  lessEquals_of_equals h hequal := by
    obtain ⟨form, k, l, ha, hb⟩ := orderable_iff_keyed.mp h
    obtain rfl := key_eq_of_equals ha hb (ok_boolean_iff.mp hequal)
    exact ⟨(lessEquals_iff_keys ha hb).mpr le_rfl, (lessEquals_iff_keys hb ha).mpr le_rfl⟩
  equals_iff_sameScale hs ht hle hge := by
    obtain ⟨form, k, l, ha, hb⟩ := keyed_of_holds rfl hle
    rw [lessEquals_iff_keys ha hb] at hle
    rw [lessEquals_iff_keys hb ha] at hge
    obtain rfl := hle.antisymm hge
    exact ok_boolean_iff.trans (equals_iff_sameScale (content_eq_of_key ha hb hs ht))

/-- `1.0` and `1.00` are unequal, but neither is less than the other. -/
theorem one_at_two_scales_coherent :
    ExactlyOne (Holds .nowhere .less (decimal ⟨10, 1⟩) (decimal ⟨100, 2⟩))
        (Holds .nowhere .less (decimal ⟨100, 2⟩) (decimal ⟨10, 1⟩))
        (Holds .nowhere .lessEquals (decimal ⟨10, 1⟩) (decimal ⟨100, 2⟩) ∧
          Holds .nowhere .lessEquals (decimal ⟨100, 2⟩) (decimal ⟨10, 1⟩)) ∧
      ¬ Holds .nowhere .equals (decimal ⟨10, 1⟩) (decimal ⟨100, 2⟩) := by
  have hcoherent := comparisons_coherent .nowhere (decimal ⟨10, 1⟩) (decimal ⟨100, 2⟩) nil
  refine ⟨hcoherent.trichotomy (.decimals _ _ _ _), fun hequal => ?_⟩
  have hscale := (hcoherent.equals_iff_sameScale rfl rfl rfl rfl).mp hequal _ rfl _ rfl
  cases hscale

end Value

end TeachLang
