/-!
# Byte widths

Texts are handled as lists of characters, while positions count the bytes of their UTF-8 form.
`byteLength` is the bridge between the two counts.
-/

namespace TeachLang.Text

/-- Number of bytes that the characters take in UTF-8. -/
def byteLength : List Char → Nat
  | [] => 0
  | c :: cs => c.utf8Size + byteLength cs

@[simp] theorem byteLength_nil : byteLength [] = 0 := rfl

@[simp] theorem byteLength_cons (c : Char) (cs : List Char) :
    byteLength (c :: cs) = c.utf8Size + byteLength cs := rfl

@[simp] theorem byteLength_append (as bs : List Char) :
    byteLength (as ++ bs) = byteLength as + byteLength bs := by
  induction as with
  | nil => simp
  | cons a as ih => simp [ih, Nat.add_assoc]

theorem byteLength_pos_of_cons (c : Char) (cs : List Char) : 0 < byteLength (c :: cs) := by
  have hc := c.utf8Size_pos
  rw [byteLength_cons]
  omega

theorem eq_nil_of_byteLength {cs : List Char} (h : byteLength cs = 0) : cs = [] := by
  cases cs with
  | nil => rfl
  | cons c cs => exact absurd h (Nat.ne_of_gt (byteLength_pos_of_cons c cs))

/-- A text can be cut in one way only behind a number of bytes. -/
theorem append_inj_of_byteLength {front front' back back' : List Char}
    (h : front ++ back = front' ++ back') (hlength : byteLength front = byteLength front') :
    front = front' ∧ back = back' := by
  induction front generalizing front' with
  | nil =>
    obtain rfl := eq_nil_of_byteLength hlength.symm
    exact ⟨rfl, h⟩
  | cons c cs ih =>
    cases front' with
    | nil => exact absurd hlength (Nat.ne_of_gt (byteLength_pos_of_cons c cs))
    | cons d ds =>
      obtain ⟨rfl, hrest⟩ := List.cons.inj h
      obtain ⟨rfl, hback⟩ := ih hrest (Nat.add_left_cancel hlength)
      exact ⟨rfl, hback⟩

/-- A character has one byte at least. -/
theorem length_le_byteLength (cs : List Char) : cs.length ≤ byteLength cs := by
  induction cs with
  | nil => exact Nat.le_refl 0
  | cons c cs ih =>
    have hc := c.utf8Size_pos
    rw [List.length_cons, byteLength_cons]
    omega

/-- A text has as many bytes as characters if and only if all of them are ASCII. -/
theorem byteLength_eq_length_iff (cs : List Char) :
    byteLength cs = cs.length ↔ ∀ c ∈ cs, c.toNat < 128 := by
  induction cs with
  | nil => exact ⟨fun _ => nofun, fun _ => rfl⟩
  | cons c cs ih =>
    have hc : c.utf8Size = 1 ↔ c.toNat < 128 :=
      Char.utf8Size_eq_one_iff.trans Nat.lt_succ_iff.symm
    have hpos := c.utf8Size_pos
    have hlength := length_le_byteLength cs
    rw [List.forall_mem_cons, ← hc, ← ih, byteLength_cons, List.length_cons]
    omega

end TeachLang.Text
