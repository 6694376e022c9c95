import TeachLang.Decimal.Exact
import TeachLang.Value.Apply

/-!
# What equality of values looks at

Equality walks through two values side by side. What it says does not depend on that walk:

* `Value.content` is a value without the methods of its records, with a number for each decimal in
  it. Two values are the same if they have one content.
* `Value.operand` is what `==` looks at. It is the content, but a decimal that is no part of another
  value stands for itself, with its scale.

So equality is an equivalence relation, whichever values are compared and however deep they are.
-/

namespace TeachLang

/-! ## Contents -/

/-- A value as equality takes it. Types are known by their names. -/
inductive Content where
  /-- a constant that is no decimal -/
  | constant (ty : String) (literal : Literal)
  /-- the number of a decimal -/
  | number (ty : String) (value : ℚ)
  /-- items -/
  | items (ty : String) (items : List Content)
  /-- named values -/
  | fields (ty : String) (fields : List (String × Content))

/-- The name of the type of a content. -/
def Content.ty : Content → String
  | constant ty _ | number ty _ | items ty _ | fields ty _ => ty

/-- The number that a content is, if it is one. -/
def Content.number? : Content → Option ℚ
  | number _ value => some value
  | _ => none

/-- The content of a constant. -/
def Literal.content (ty : String) : Literal → Content
  | .decimal d => .number ty d.toRat
  | literal => .constant ty literal

@[simp] theorem Literal.ty_content (ty : String) (x : Literal) : (x.content ty).ty = ty := by
  cases x <;> rfl

namespace Value

mutual

/-- The content of a value. -/
def content : Value → Content
  | atom ty literal => literal.content ty.name
  | iterable ty items => .items ty.name (contents items)
  | record ty fields _ => .fields ty.name (fieldContents fields)

/-- The contents of items. -/
def contents : List Value → List Content
  | [] => []
  | value :: values => content value :: contents values

/-- The contents of fields, with their names. -/
def fieldContents {bound : Option String} : Fields Value bound → List (String × Content)
  | .nil => []
  | .cons name _ value others => (name, content value) :: fieldContents others

end

theorem sameLiteral_iff {x y : Literal} (ty : String) :
    sameLiteral x y = true ↔ x.content ty = y.content ty := by
  cases x <;> cases y <;> simp [sameLiteral, Literal.content, Decimal.sameValue_iff]

/-- Constants of one content have types of one name. -/
theorem atom_content_eq_iff {s t : Ty} {x y : Literal} :
    x.content s.name = y.content t.name ↔ s.same t = true ∧ sameLiteral x y = true := by
  rw [Ty.same, beq_iff_eq]
  constructor
  · intro h
    have hty : s.name = t.name := by simpa using congrArg Content.ty h
    rw [hty] at h
    exact ⟨hty, (sameLiteral_iff t.name).mpr h⟩
  · rintro ⟨hty, h⟩
    rw [hty, (sameLiteral_iff t.name).mp h]

variable {a b : Value}

mutual

/-- Values are the same if they have one content. -/
theorem same_iff : ∀ {a b : Value}, same a b = true ↔ a.content = b.content
  | atom s x, atom t y => by
    rw [same, Bool.and_eq_true, content, content, atom_content_eq_iff]
  | iterable s as, iterable t bs => by
    rw [same, Bool.and_eq_true, content, content, sameItems_iff, Content.items.injEq, Ty.same,
      beq_iff_eq]
  | record s as _, record t bs _ => by
    rw [same, Bool.and_eq_true, content, content, sameFields_iff, Content.fields.injEq, Ty.same,
      beq_iff_eq]
  | atom _ x, iterable .. | atom _ x, record .. => by
    cases x <;> simp [same, content, Literal.content]
  | iterable .., atom _ y | record .., atom _ y => by
    cases y <;> simp [same, content, Literal.content]
  | iterable .., record .. | record .., iterable .. => by simp [same, content]

/-- Items are the same if they have the same contents. -/
theorem sameItems_iff : ∀ {as bs : List Value},
    sameItems as bs = true ↔ contents as = contents bs
  | [], [] => by simp [sameItems]
  | [], _ :: _ | _ :: _, [] => by simp [sameItems, contents]
  | a :: as, b :: bs => by
    rw [sameItems, Bool.and_eq_true, contents, contents, same_iff, sameItems_iff, List.cons.injEq]

/-- Fields are the same if they have the same names and contents. -/
theorem sameFields_iff {low high : Option String} : ∀ {as : Fields Value low}
    {bs : Fields Value high}, sameFields as bs = true ↔ fieldContents as = fieldContents bs
  | .nil, .nil => by simp [sameFields, fieldContents]
  | .nil, .cons .. | .cons .., .nil => by simp [sameFields, fieldContents]
  | .cons m _ a as, .cons n _ b bs => by
    rw [sameFields, Bool.and_eq_true, Bool.and_eq_true, beq_iff_eq, fieldContents, fieldContents,
      same_iff, sameFields_iff, List.cons.injEq, Prod.mk.injEq]

end

/-! ## Operands -/

/-- The decimal that a value is, if it is one. -/
def decimal? : Value → Option Decimal
  | atom _ (.decimal d) => some d
  | _ => none

/-- Whether two values are no decimals with different scales. -/
def SameScale (a b : Value) : Prop :=
  ∀ x ∈ a.decimal?, ∀ y ∈ b.decimal?, x.scale = y.scale

/-- What `==` looks at: a decimal on its own is known by its digits and its scale. -/
def operand (value : Value) : Decimal ⊕ Content :=
  match value.decimal? with
  | some d => .inl d
  | none => .inr value.content

theorem number?_content (value : Value) : value.content.number? = value.decimal?.map (·.toRat) := by
  rcases value with ⟨ty, literal⟩ | ⟨ty, items⟩ | ⟨ty, fields, methods⟩
  · cases literal <;> rfl
  · rfl
  · rfl

theorem decimal?_eq_some {value : Value} {d : Decimal} (h : value.decimal? = some d) :
    ∃ ty, value = atom ty (.decimal d) := by
  unfold decimal? at h
  split at h
  · exact ⟨_, congrArg _ (congrArg _ (Option.some.inj h))⟩
  · cases h

/-- Equality has a rule of its own for two decimals. -/
theorem equals_eq (a b : Value) :
    equals a b = match a.decimal?, b.decimal? with
      | some x, some y => decide (x = y)
      | _, _ => same a b := by
  cases hx : a.decimal? with
  | none =>
    rw [equals]
    rintro s x t y rfl
    cases hx
  | some x =>
    cases hy : b.decimal? with
    | none =>
      rw [equals]
      rintro s x t y - rfl
      cases hy
    | some y =>
      obtain ⟨s, rfl⟩ := decimal?_eq_some hx
      obtain ⟨t, rfl⟩ := decimal?_eq_some hy
      rfl

/-- Values of one content are both decimals or neither is. -/
theorem map_decimal?_eq (h : a.content = b.content) :
    a.decimal?.map (·.toRat) = b.decimal?.map (·.toRat) := by
  rw [← number?_content, h, number?_content]

/-- Operands are equal if `==` sees the same in them. -/
theorem equals_iff : equals a b = true ↔ a.operand = b.operand := by
  have hnumber := map_decimal?_eq (a := a) (b := b)
  rw [equals_eq, operand, operand]
  cases ha : a.decimal? <;> cases hb : b.decimal? <;> rw [ha, hb] at hnumber
  case some.some => simp
  case none.none => simp [same_iff]
  all_goals
    -- a decimal and another value
    simp only [same_iff, reduceCtorEq, iff_false]
    exact fun h => nomatch hnumber h

/-- Equal operands have one content, unless they are the same decimal under different types. -/
theorem operand_cases (h : a.operand = b.operand) :
    a.content = b.content ∨ ∃ s t x, a = atom s (.decimal x) ∧ b = atom t (.decimal x) := by
  rw [operand, operand] at h
  cases ha : a.decimal? <;> cases hb : b.decimal? <;> rw [ha, hb] at h
  case none.none => exact .inl (Sum.inr.inj h)
  case some.some x y =>
    obtain rfl := Sum.inl.inj h
    obtain ⟨s, hs⟩ := decimal?_eq_some ha
    obtain ⟨t, ht⟩ := decimal?_eq_some hb
    exact .inr ⟨s, t, x, hs, ht⟩
  all_goals cases h

/-- Values of one content are told apart by the scales of decimals only. -/
theorem equals_iff_sameScale (h : a.content = b.content) : equals a b = true ↔ SameScale a b := by
  have hnumber := map_decimal?_eq h
  rw [equals_eq, SameScale]
  cases ha : a.decimal? <;> cases hb : b.decimal? <;> rw [ha, hb] at hnumber
  case some.some x y =>
    have hvalue : x.toRat = y.toRat := Option.some.inj hnumber
    rw [decide_eq_true_iff, Decimal.eq_iff, and_iff_right hvalue]
    simp only [Option.mem_def, Option.some.injEq, forall_eq']
  case none.none => simpa [same_iff] using h
  all_goals cases hnumber

/-- A truth value says that something holds if it is the true one. -/
theorem ok_boolean_iff {x : Bool} :
    (.ok (boolean x) : Except Diagnostic Value) = .ok (boolean true) ↔ x = true := by
  cases x with
  | true => exact iff_of_true rfl rfl
  | false => exact iff_of_false nofun nofun

end Value

end TeachLang
