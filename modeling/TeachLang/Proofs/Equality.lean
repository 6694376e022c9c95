import Mathlib.Data.List.Forall2
import TeachLang.Proofs.Contents

/-!
# Equality of parts

`==` tells decimals of one value apart if their scales differ, but only if they are its operands
themselves. Inside of other values it does not.

* `Value.Counterparts` are the parts that stand at the same place of two values.
* `Value.equals_up_to_scales`: equal values have the same parts, and nothing but the scales of
  decimals can make two counterparts unequal, or the texts of the values differ.
-/

namespace TeachLang.Value

variable {a b c d v w : Value}

/-- `c` and `d` stand at the same place of `a` and `b`. -/
inductive Counterparts (a b : Value) : Value → Value → Prop
  /-- the values themselves -/
  | refl : Counterparts a b a b
  /-- fields of one name -/
  | field {s t : Ty} {as bs : Fields Value none} {ms ns : List ((String × Nat) × Nat)}
    {name : String} {v w : Value} :
    Counterparts a b (record s as ms) (record t bs ns) →
    ((name, v), (name, w)) ∈ as.toList.zip bs.toList → Counterparts a b v w
  /-- items -/
  | item {s t : Ty} {as bs : List Value} {v w : Value} :
    Counterparts a b (iterable s as) (iterable t bs) → (v, w) ∈ as.zip bs → Counterparts a b v w

theorem Counterparts.trans (h : Counterparts a b v w) (h' : Counterparts v w c d) :
    Counterparts a b c d := by
  induction h' with
  | refl => exact h
  | field _ hmem ih => exact .field ih hmem
  | item _ hmem ih => exact .item ih hmem

/-! ## Counterparts of one content -/

theorem content_eq_of_mem_zip : ∀ {as bs : List Value}, contents as = contents bs →
    ∀ {v w}, (v, w) ∈ as.zip bs → v.content = w.content
  | a :: as, b :: bs, h, v, w, hmem => by
    obtain ⟨hhead, htail⟩ := List.cons.inj h
    rcases List.mem_cons.mp hmem with heq | hmem
    · obtain ⟨rfl, rfl⟩ := Prod.mk.inj heq
      exact hhead
    · exact content_eq_of_mem_zip htail hmem

theorem fieldContent_eq_of_mem_zip {low high : Option String} : ∀ {as : Fields Value low}
    {bs : Fields Value high}, fieldContents as = fieldContents bs →
    ∀ {m n v w}, ((m, v), (n, w)) ∈ as.toList.zip bs.toList → m = n ∧ v.content = w.content
  | .cons m _ a as, .cons n _ b bs, h, m', n', v, w, hmem => by
    obtain ⟨hhead, htail⟩ := List.cons.inj h
    rcases List.mem_cons.mp hmem with heq | hmem
    · cases heq
      exact Prod.mk.inj hhead
    · exact fieldContent_eq_of_mem_zip htail hmem

/-- What stands at the same place of values of one content has one content. -/
theorem Counterparts.content_eq (h : Counterparts a b c d) (hcontent : a.content = b.content) :
    c.content = d.content := by
  induction h with
  | refl => exact hcontent
  | field _ hmem ih => exact (fieldContent_eq_of_mem_zip (Content.fields.inj ih).2 hmem).2
  | item _ hmem ih => exact content_eq_of_mem_zip (Content.items.inj ih).2 hmem

/-! ## Members -/

/-- The items of a value. -/
def itemList : Value → List Value
  | iterable _ items => items
  | _ => []

theorem forall₂_mem_zip : ∀ {as bs : List Value}, contents as = contents bs →
    List.Forall₂ (fun v w => (v, w) ∈ as.zip bs) as bs
  | [], [], _ => .nil
  | a :: as, b :: bs, h => by
    obtain ⟨-, htail⟩ := List.cons.inj h
    refine .cons List.mem_cons_self ((forall₂_mem_zip htail).imp fun v w hmem => ?_)
    exact List.mem_cons_of_mem _ hmem

theorem forall₂_field_mem_zip {low high : Option String} : ∀ {as : Fields Value low}
    {bs : Fields Value high}, fieldContents as = fieldContents bs →
    List.Forall₂ (fun f g => f.1 = g.1 ∧ (f, (f.1, g.2)) ∈ as.toList.zip bs.toList)
      as.toList bs.toList
  | .nil, .nil, _ => .nil
  | .cons m _ a as, .cons n _ b bs, h => by
    obtain ⟨hhead, htail⟩ := List.cons.inj h
    obtain rfl : m = n := (Prod.mk.inj hhead).1
    refine .cons ⟨rfl, List.mem_cons_self⟩ ((forall₂_field_mem_zip htail).imp ?_)
    rintro f g ⟨hname, hmem⟩
    exact ⟨hname, List.mem_cons_of_mem _ hmem⟩

/-- In fields of the same names, a name is found at the same place. -/
theorem rel_lookup {R : Value → Value → Prop} {as bs : List (String × Value)}
    (h : List.Forall₂ (fun f g => f.1 = g.1 ∧ R f.2 g.2) as bs) (name : String) :
    Option.Rel R (as.lookup name) (bs.lookup name) := by
  induction h with
  | nil => exact .none
  | @cons f g as bs hfirst _ ih =>
    obtain ⟨m, v⟩ := f
    obtain ⟨n, w⟩ := g
    obtain ⟨hname, hrel⟩ := hfirst
    obtain rfl : m = n := hname
    rw [List.lookup_cons, List.lookup_cons]
    cases name == m with
    | true => exact .some hrel
    | false => exact ih

/-- Values of one content have counterparts under the same names. -/
theorem rel_field? (h : a.content = b.content) (name : String) :
    Option.Rel (Counterparts a b) (a.field? name) (b.field? name) := by
  match a, b with
  | record s as ms, record t bs ns =>
    have hfields := forall₂_field_mem_zip (Content.fields.inj h).2
    refine rel_lookup (hfields.imp fun f g hmem => ⟨hmem.1, ?_⟩) name
    exact .field .refl hmem.2
  | atom s x, record t bs ns => cases x <;> cases h
  | record s as ms, atom t y => cases y <;> cases h
  | iterable s as, record t bs ns | record s as ms, iterable t bs => cases h
  | atom _ _, atom _ _ | atom _ _, iterable _ _ | iterable _ _, atom _ _
  | iterable _ _, iterable _ _ => exact .none

/-- Values of one content have items that are counterparts. -/
theorem forall₂_itemList (h : a.content = b.content) :
    List.Forall₂ (Counterparts a b) a.itemList b.itemList := by
  match a, b with
  | iterable s as, iterable t bs =>
    have hitems := forall₂_mem_zip (Content.items.inj h).2
    exact hitems.imp fun v w hmem => .item .refl hmem
  | atom s x, iterable t bs => cases x <;> cases h
  | iterable s as, atom t y => cases y <;> cases h
  | iterable s as, record t bs ns | record s as ms, iterable t bs => cases h
  | atom _ _, atom _ _ | atom _ _, record _ _ _ | record _ _ _, atom _ _
  | record _ _ _, record _ _ _ => exact .nil

/-! ## Texts -/

theorem literal_eq {s t : Ty} {x y : Literal} (h : (atom s x).content = (atom t y).content)
    (hscale : SameScale (atom s x) (atom t y)) : x = y := by
  have hsame : sameLiteral x y = true := (atom_content_eq_iff.mp h).2
  unfold sameLiteral at hsame
  split at hsame
  case h_1 x y =>
    exact congrArg _ (Decimal.eq_iff.mpr ⟨Decimal.sameValue_iff.mp hsame, hscale x rfl y rfl⟩)
  case h_2 => exact of_decide_eq_true hsame

mutual

/-- Values of one content have one text if no decimals in them differ in their scales. -/
theorem text_eq : ∀ {a b : Value}, a.content = b.content →
    (∀ c d, Counterparts a b c d → SameScale c d) → a.text = b.text
  | atom s x, atom t y, h, hscale => by
    rw [text, text, literal_eq h (hscale _ _ .refl)]
  | iterable s as, iterable t bs, h, hscale => by
    obtain ⟨-, hitems⟩ := Content.items.inj h
    rw [text, text, itemTexts_eq hitems fun v w hmem c d hparts =>
      hscale c d ((Counterparts.item .refl hmem).trans hparts)]
  | record s as ms, record t bs ns, h, hscale => by
    obtain ⟨hty, hfields⟩ := Content.fields.inj h
    rw [text, text, hty, fieldTexts_eq hfields fun name v w hmem c d hparts =>
      hscale c d ((Counterparts.field .refl hmem).trans hparts)]
  | atom s x, iterable t bs, h, _ | atom s x, record t bs ns, h, _ => by cases x <;> cases h
  | iterable s as, atom t y, h, _ | record s as ms, atom t y, h, _ => by cases y <;> cases h
  | iterable s as, record t bs ns, h, _ | record s as ms, iterable t bs, h, _ => by cases h

theorem itemTexts_eq : ∀ {as bs : List Value}, contents as = contents bs →
    (∀ v w, (v, w) ∈ as.zip bs → ∀ c d, Counterparts v w c d → SameScale c d) →
    itemTexts as = itemTexts bs
  | [], [], _, _ => rfl
  | a :: as, b :: bs, h, hscale => by
    obtain ⟨hhead, htail⟩ := List.cons.inj h
    rw [itemTexts, itemTexts, text_eq hhead (hscale a b List.mem_cons_self),
      itemTexts_eq htail fun v w hmem => hscale v w (List.mem_cons_of_mem _ hmem)]

theorem fieldTexts_eq {low high : Option String} : ∀ {as : Fields Value low}
    {bs : Fields Value high}, fieldContents as = fieldContents bs →
    (∀ name v w, ((name, v), (name, w)) ∈ as.toList.zip bs.toList →
      ∀ c d, Counterparts v w c d → SameScale c d) →
    fieldTexts as = fieldTexts bs
  | .nil, .nil, _, _ => rfl
  | .cons m _ a as, .cons n _ b bs, h, hscale => by
    obtain ⟨hhead, htail⟩ := List.cons.inj h
    obtain ⟨hname, hvalue⟩ := Prod.mk.inj hhead
    obtain rfl : m = n := hname
    rw [fieldTexts, fieldTexts, text_eq hvalue (hscale m a b List.mem_cons_self),
      fieldTexts_eq htail fun name v w hmem => hscale name v w (List.mem_cons_of_mem _ hmem)]

end

/-! ## Equal values -/

/-- A constant has no parts. -/
theorem Counterparts.eq_of_atom {s t : Ty} {x y : Literal}
    (h : Counterparts (atom s x) (atom t y) c d) : c = atom s x ∧ d = atom t y := by
  induction h with
  | refl => exact ⟨rfl, rfl⟩
  | field _ _ ih | item _ _ ih => cases ih.1

/-- **Equality up to scales**. Operands are equal if `==` sees the same in them. Then they have the
same fields and items all the way down, and at each place `==` holds of the two values there unless
they are decimals with different scales. If there are no such decimals, the texts are the same. -/
theorem equals_up_to_scales (a b : Value) (position : Position) :
    (apply .equals a b position = .ok (boolean true) ↔ a.operand = b.operand) ∧
    (apply .equals a b position = .ok (boolean true) → ∀ c d, Counterparts a b c d →
      (apply .equals c d position = .ok (boolean true) ↔ SameScale c d) ∧
      (∀ name, Option.Rel (Counterparts c d) (c.field? name) (d.field? name)) ∧
      List.Forall₂ (Counterparts c d) c.itemList d.itemList ∧
      ((∀ e f, Counterparts c d e f → SameScale e f) → c.text = d.text)) := by
  refine ⟨ok_boolean_iff.trans equals_iff, fun hequal c d hparts => ?_⟩
  rw [apply, ok_boolean_iff] at hequal ⊢
  rcases operand_cases (equals_iff.mp hequal) with hcontent | ⟨s, t, x, rfl, rfl⟩
  · have hsame := hparts.content_eq hcontent
    exact ⟨equals_iff_sameScale hsame, rel_field? hsame, forall₂_itemList hsame, text_eq hsame⟩
  · obtain ⟨rfl, rfl⟩ := hparts.eq_of_atom
    have hscale : SameScale (atom s (.decimal x)) (atom t (.decimal x)) := by
      rintro y ⟨⟩ z ⟨⟩
      rfl
    exact ⟨iff_of_true hequal hscale, fun name => .none, .nil, fun _ => rfl⟩

/-- A record with a number and numbers that a loop can run over. -/
def reading (number : Decimal) (numbers : List Decimal) : Value :=
  ofFields (.record "Reading" "Reading" [("number", .decimal), ("numbers", .integerIterable)] [])
    [("number", decimal number), ("numbers", items (numbers.map decimal))] []

/-- `1.0` and `1.00` stand in for each other inside of records, and `2.5` for itself only. -/
theorem readings_up_to_scales :
    apply .equals (reading ⟨10, 1⟩ [⟨25, 1⟩]) (reading ⟨100, 2⟩ [⟨25, 1⟩]) .nowhere =
        .ok (boolean true) ∧
      Counterparts (reading ⟨10, 1⟩ [⟨25, 1⟩]) (reading ⟨100, 2⟩ [⟨25, 1⟩]) (decimal ⟨10, 1⟩)
        (decimal ⟨100, 2⟩) ∧
      ¬ apply .equals (decimal ⟨10, 1⟩) (decimal ⟨100, 2⟩) .nowhere = .ok (boolean true) := by
  have hequal : apply .equals (reading ⟨10, 1⟩ [⟨25, 1⟩]) (reading ⟨100, 2⟩ [⟨25, 1⟩]) .nowhere =
      .ok (boolean true) := by rfl
  have hparts : Counterparts (reading ⟨10, 1⟩ [⟨25, 1⟩]) (reading ⟨100, 2⟩ [⟨25, 1⟩])
      (decimal ⟨10, 1⟩) (decimal ⟨100, 2⟩) := .field .refl List.mem_cons_self
  obtain ⟨hscale, -⟩ := (equals_up_to_scales _ _ .nowhere).2 hequal _ _ hparts
  refine ⟨hequal, hparts, fun h => ?_⟩
  have := hscale.mp h _ rfl _ rfl
  cases this

/-- Equal records with texts and fields that can be told apart. -/
theorem readings_told_apart :
    apply .equals (reading ⟨10, 1⟩ []) (reading ⟨100, 2⟩ []) .nowhere = .ok (boolean true) ∧
      (reading ⟨10, 1⟩ []).text ≠ (reading ⟨100, 2⟩ []).text ∧
      (reading ⟨10, 1⟩ []).field? "number" = some (decimal ⟨10, 1⟩) ∧
      (reading ⟨100, 2⟩ []).field? "number" = some (decimal ⟨100, 2⟩) ∧
      apply .equals (decimal ⟨10, 1⟩) (decimal ⟨100, 2⟩) .nowhere = .ok (boolean false) := by
  refine ⟨by rfl, ?_, by rfl, by rfl, by rfl⟩
  decide +kernel

end TeachLang.Value
