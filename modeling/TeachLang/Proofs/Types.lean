import TeachLang.Typing.Expr

/-!
# Types and the table of operators

A type may be put where another is required if their names agree, or if the other stands for many:
`Any` for all of them, `Comparable` for those with an order. The table of operators says which
operands an operator takes and of which type its result is; the lemmas here read it backward, from
the result to the operands.
-/

namespace TeachLang

namespace Ty

theorem same_iff {a b : Ty} : a.same b ↔ a.name = b.name := beq_iff_eq

/-- The three ways in which a type may be put where another is required. -/
theorem isAssignable_iff {target source : Ty} : target.isAssignable source ↔
    target.name = source.name ∨ target.name = any.name ∨
      (target.name = comparable.name ∧ ∃ ty ∈ ordered, source.name = ty.name) := by
  simp only [isAssignable, Bool.or_eq_true, Bool.and_eq_true, List.any_eq_true, same_iff, or_assoc]

theorem isAssignable_of_require {target source : Ty} {position : Position} {u : Unit}
    (h : requireAssignable target source position = .ok u) : target.isAssignable source := by
  rw [requireAssignable] at h
  split at h
  · assumption
  · cases h

theorem isAssignable_self (ty : Ty) : ty.isAssignable ty := isAssignable_iff.mpr (.inl rfl)

/-- Neither `Any` nor `Comparable` has an order. -/
theorem ne_of_mem_ordered {ty : Ty} (h : ty ∈ ordered) :
    ty.name ≠ any.name ∧ ty.name ≠ comparable.name := by
  simp only [ordered, List.mem_cons, List.not_mem_nil, or_false] at h
  rcases h with rfl | rfl | rfl | rfl <;> decide

theorem isAssignable_trans {a b c : Ty} (hab : a.isAssignable b) (hbc : b.isAssignable c) :
    a.isAssignable c := by
  rw [isAssignable_iff] at *
  rcases hab with hname | hany | ⟨hcomparable, ty, hty, hb⟩
  · rwa [hname]
  · exact .inr (.inl hany)
  · -- what takes the source has an order itself, so it takes nothing but its own
    obtain ⟨hne, hne'⟩ := ne_of_mem_ordered hty
    rw [← hb] at hne hne'
    rcases hbc with hname | hany | ⟨hcomparable', -⟩
    · exact .inr (.inr ⟨hcomparable, ty, hty, hname ▸ hb⟩)
    · exact absurd hany hne
    · exact absurd hcomparable' hne'

/-- A type that does not stand for others takes only its own values. -/
theorem name_eq_of_isAssignable {target source : Ty} (h : target.isAssignable source)
    (hany : target.name ≠ any.name) (hcomparable : target.name ≠ comparable.name) :
    source.name = target.name := by
  rcases isAssignable_iff.mp h with hname | hany' | ⟨hcomparable', -⟩
  · exact hname.symm
  · exact absurd hany' hany
  · exact absurd hcomparable' hcomparable

end Ty

/-! ## The table of operators -/

namespace Operator

/-- The result of an operator is of a built-in type. -/
theorem result?_mem_builtins {operator : Operator} {a b ty : Ty}
    (h : operator.result? a b = some ty) : ty ∈ Ty.builtins := by
  have hb : Ty.boolean ∈ Ty.builtins := by simp [Ty.builtins]
  have hi : Ty.integer ∈ Ty.builtins := by simp [Ty.builtins]
  have hd : Ty.decimal ∈ Ty.builtins := by simp [Ty.builtins]
  have hs : Ty.string ∈ Ty.builtins := by simp [Ty.builtins]
  cases operator <;> simp only [result?] at h <;> repeat' split at h
  all_goals first
    | obtain rfl := Option.some.inj h; assumption
    | cases h

theorem result?_of_result {operator : Operator} {a b ty : Ty} {position : Position}
    (h : operator.result a b position = .ok ty) : operator.result? a b = some ty := by
  rw [result] at h
  split at h
  · next hr => rw [hr, Except.ok.inj h]
  · cases h

/-- Truth values are tied to truth values. -/
theorem result?_logic {operator : Operator} (ho : operator = .and ∨ operator = .or) {a b ty : Ty}
    (h : operator.result? a b = some ty) :
    a.name = Ty.boolean.name ∧ b.name = Ty.boolean.name ∧ ty = .boolean := by
  have htable : (if a.same .boolean && b.same .boolean then some Ty.boolean else none) =
      some ty := by
    rcases ho with rfl | rfl <;> exact h
  split at htable
  · next hboth =>
    rw [Bool.and_eq_true, Ty.same_iff, Ty.same_iff] at hboth
    exact ⟨hboth.1, hboth.2, (Option.some.inj htable).symm⟩
  · cases htable

/-- Comparing gives truth values. -/
theorem result?_comparison {operator : Operator} (ho : operator.isComparison) {a b ty : Ty}
    (h : operator.result? a b = some ty) : ty = .boolean := by
  have htable : (if Ty.comparable.isAssignable a && Ty.comparable.isAssignable b then
      some Ty.boolean else none) = some ty := by
    cases operator <;> first | exact h | cases ho
  split at htable
  · exact (Option.some.inj htable).symm
  · cases htable

/-- A sum is of texts or of two numbers of one type. -/
theorem result?_plus {a b ty : Ty} (h : plus.result? a b = some ty) :
    ((a.name = Ty.string.name ∨ b.name = Ty.string.name) ∧ ty = .string) ∨
      (a.name = Ty.integer.name ∧ b.name = Ty.integer.name ∧ ty = .integer) ∨
      (a.name = Ty.decimal.name ∧ b.name = Ty.decimal.name ∧ ty = .decimal) := by
  simp only [result?] at h
  split at h
  · next htext =>
    rw [Bool.or_eq_true, Ty.same_iff, Ty.same_iff] at htext
    exact .inl ⟨htext, (Option.some.inj h).symm⟩
  split at h
  · next hboth =>
    rw [Bool.and_eq_true, Ty.same_iff, Ty.same_iff] at hboth
    exact .inr (.inl ⟨hboth.1, hboth.2, (Option.some.inj h).symm⟩)
  split at h
  · next hboth =>
    rw [Bool.and_eq_true, Ty.same_iff, Ty.same_iff] at hboth
    exact .inr (.inr ⟨hboth.1, hboth.2, (Option.some.inj h).symm⟩)
  · cases h

/-- The other arithmetic is of two whole numbers, or one operand is a decimal. -/
theorem result?_arithmetic {operator : Operator}
    (ho : operator = .minus ∨ operator = .multiply ∨ operator = .divide) {a b ty : Ty}
    (h : operator.result? a b = some ty) :
    (a.name = Ty.integer.name ∧ b.name = Ty.integer.name ∧ ty = .integer) ∨
      ((a.name = Ty.decimal.name ∨ b.name = Ty.decimal.name) ∧ ty = .decimal) := by
  have htable : (if a.same .integer && b.same .integer then some Ty.integer
      else if a.same .decimal || b.same .decimal then some Ty.decimal else none) = some ty := by
    rcases ho with rfl | rfl | rfl <;> exact h
  split at htable
  · next hboth =>
    rw [Bool.and_eq_true, Ty.same_iff, Ty.same_iff] at hboth
    exact .inl ⟨hboth.1, hboth.2, (Option.some.inj htable).symm⟩
  split at htable
  · next heither =>
    rw [Bool.or_eq_true, Ty.same_iff, Ty.same_iff] at heither
    exact .inr ⟨heither, (Option.some.inj htable).symm⟩
  · cases htable

end Operator

end TeachLang
