import TeachLang.Proofs.Types
import TeachLang.Value.Apply

/-!
# What values are made of

A value is **represented** as its tag says if it is made of what the built-in type of that name is
made of, or is a record if there is no such type. So whoever knows the tag of a value that is
represented knows its form, which is what operators go by.
-/

namespace TeachLang

namespace Literal

/-- Two constants are of one form. -/
def Alike : Literal → Literal → Prop
  | nil, nil | boolean _, boolean _ | integer _, integer _ | decimal _, decimal _
  | character _, character _ | string _, string _ => True
  | _, _ => False

/-- The type of a constant tells its form. -/
theorem alike_of_name_eq {a b : Literal} (h : a.ty.name = b.ty.name) : a.Alike b := by
  cases a <;> cases b <;>
    simp_all [Alike, ty, Ty.nil, Ty.boolean, Ty.integer, Ty.decimal, Ty.character, Ty.string,
      Ty.plain]

/-- No constant has one of the other built-in types. -/
theorem ty_name_ne (a : Literal) : a.ty.name ≠ Ty.any.name ∧ a.ty.name ≠ Ty.comparable.name ∧
    a.ty.name ≠ Ty.integerIterable.name := by
  cases a <;>
    simp [ty, Ty.nil, Ty.boolean, Ty.integer, Ty.decimal, Ty.character, Ty.string, Ty.any,
      Ty.comparable, Ty.integerIterable, Ty.plain]

end Literal

namespace Value

/-- A whole number under its own type. -/
inductive IsInteger : Value → Prop where
  /-- under any type of the name -/
  | intro {ty : Ty} (n : Int) : ty.name = Ty.integer.name → IsInteger (.atom ty (.integer n))

/-- A value is made of what its tag says. -/
inductive Represented : Value → Prop where
  /-- constants are tagged as such -/
  | atom {ty : Ty} {literal : Literal} :
    ty.name = literal.ty.name → Represented (.atom ty literal)
  /-- only whole numbers are iterated over -/
  | iterable {ty : Ty} {items : List Value} :
    ty.name = Ty.integerIterable.name → (∀ item ∈ items, IsInteger item) →
    Represented (.iterable ty items)
  /-- records have types of their own -/
  | record {ty : Ty} {fields : Fields Value none} {methods : List ((String × Nat) × Nat)} :
    (∀ builtin ∈ Ty.builtins, ty.name ≠ builtin.name) → Represented (.record ty fields methods)

/-- What a literal evaluates to is represented as a constant of its form. -/
theorem represented_ofLiteral (literal : Literal) : (ofLiteral literal).Represented := .atom rfl

theorem IsInteger.represented {value : Value} (h : value.IsInteger) : value.Represented := by
  cases h with
  | intro n hty => exact .atom hty

/-! ## Canonical forms -/

/-- What is tagged as a constant is one. -/
theorem Represented.eq_atom {value : Value} (h : value.Represented) (form : Literal)
    (hty : value.ty.name = form.ty.name) :
    ∃ ty literal, value = .atom ty literal ∧ literal.Alike form := by
  cases h with
  | atom hliteral => exact ⟨_, _, rfl, Literal.alike_of_name_eq (hliteral.symm.trans hty)⟩
  | iterable hiterable _ =>
    exact absurd (hty.symm.trans hiterable) form.ty_name_ne.2.2
  | record hrecord =>
    exact absurd hty (hrecord _ (by cases form <;> simp [Literal.ty, Ty.builtins]))

theorem Represented.nil {value : Value} (h : value.Represented)
    (hty : value.ty.name = Ty.nil.name) : ∃ ty, value = .atom ty .nil := by
  obtain ⟨ty, literal, rfl, halike⟩ := h.eq_atom .nil hty
  cases literal with
  | nil => exact ⟨ty, rfl⟩
  | _ => exact halike.elim

/-- The tag of a constant says its form, for each form that has operators. -/
theorem Represented.boolean {value : Value} (h : value.Represented)
    (hty : value.ty.name = Ty.boolean.name) : ∃ ty b, value = .atom ty (.boolean b) := by
  obtain ⟨ty, literal, rfl, halike⟩ := h.eq_atom (.boolean true) hty
  cases literal with
  | boolean b => exact ⟨ty, b, rfl⟩
  | _ => exact halike.elim

theorem Represented.integer {value : Value} (h : value.Represented)
    (hty : value.ty.name = Ty.integer.name) : ∃ ty n, value = .atom ty (.integer n) := by
  obtain ⟨ty, literal, rfl, halike⟩ := h.eq_atom (.integer 0) hty
  cases literal with
  | integer n => exact ⟨ty, n, rfl⟩
  | _ => exact halike.elim

theorem Represented.decimal {value : Value} (h : value.Represented)
    (hty : value.ty.name = Ty.decimal.name) : ∃ ty d, value = .atom ty (.decimal d) := by
  obtain ⟨ty, literal, rfl, halike⟩ := h.eq_atom (.decimal ⟨0, 0⟩) hty
  cases literal with
  | decimal d => exact ⟨ty, d, rfl⟩
  | _ => exact halike.elim

theorem Represented.character {value : Value} (h : value.Represented)
    (hty : value.ty.name = Ty.character.name) : ∃ ty c, value = .atom ty (.character c) := by
  obtain ⟨ty, literal, rfl, halike⟩ := h.eq_atom (.character 'a') hty
  cases literal with
  | character c => exact ⟨ty, c, rfl⟩
  | _ => exact halike.elim

theorem Represented.string {value : Value} (h : value.Represented)
    (hty : value.ty.name = Ty.string.name) : ∃ ty s, value = .atom ty (.string s) := by
  obtain ⟨ty, literal, rfl, halike⟩ := h.eq_atom (.string "") hty
  cases literal with
  | string s => exact ⟨ty, s, rfl⟩
  | _ => exact halike.elim

/-- What is tagged as a series is one, of whole numbers. -/
theorem Represented.items {value : Value} (h : value.Represented)
    (hty : value.ty.name = Ty.integerIterable.name) :
    ∃ ty items, value = .iterable ty items ∧ ∀ item ∈ items, IsInteger item := by
  cases h with
  | @atom ty literal hliteral =>
    exact absurd (hliteral.symm.trans hty) literal.ty_name_ne.2.2
  | @iterable ty items _ hitems => exact ⟨ty, items, rfl, hitems⟩
  | record hrecord => exact absurd hty (hrecord _ (by simp [Ty.builtins]))

end Value

end TeachLang
