import Mathlib.Data.String.Basic
import TeachLang.Proofs.Assignment
import TeachLang.Proofs.Contents
import TeachLang.Proofs.Offsets

/-!
# Fields

A record maps names to values. Its fields are in the ascending order of the names, so there are no
two records for one such map, and what a record is can be said without the order.

* `Value.induction_parts` is induction along the items and fields of values.
* `Value.eq_of_parts`: a value is known by what is found at the ends of paths of names.
* `Value.same_record_iff`: equality looks at what is found under each name.
* `Value.Shown` says what the text of a value is. It looks fields up, one after the other in the
  order of the bytes of their names, and does not know how they are kept.
-/

namespace TeachLang

/-! ## The order of bytes -/

namespace Text

/-- Of two numbers below a bound, the smaller one is written as bytes that come first, whatever is
behind them. -/
def Climbs (write : Nat → List UInt8) (bound : Nat) : Prop :=
  ∀ m n, m < n → n < bound → ∀ xs ys, write m ++ xs < write n ++ ys

variable {write : Nat → List UInt8} {bound : Nat}

theorem cons_lt_of_ofNat {m n : Nat} (h : m < n) (hn : n < 256) (xs ys : List UInt8) :
    UInt8.ofNat m :: xs < UInt8.ofNat n :: ys :=
  List.cons_lt_cons_iff.mpr (.inl ((UInt8.ofNat_lt_iff_lt (h.trans hn) hn).mpr h))

theorem climbs_lead (bound lead : Nat) (h : bound + lead ≤ 256) :
    Climbs (fun n => [UInt8.ofNat (n % bound + lead)]) bound := by
  intro m n hmn hn xs ys
  refine cons_lt_of_ofNat ?_ ?_ _ _
  · rw [Nat.mod_eq_of_lt hn, Nat.mod_eq_of_lt (hmn.trans hn)]
    omega
  · rw [Nat.mod_eq_of_lt hn]
    omega

/-- A digit more is written behind the other ones. -/
theorem Climbs.digit (h : Climbs write bound) :
    Climbs (fun n => write (n / 64) ++ [UInt8.ofNat (n % 64 + 128)]) (bound * 64) := by
  intro m n hmn hn xs ys
  simp only [List.append_assoc]
  rcases Nat.lt_or_ge (m / 64) (n / 64) with hfront | hfront
  · exact h _ _ hfront (by omega) _ _
  · have hsame : m / 64 = n / 64 := by omega
    rw [hsame]
    exact List.append_left_lt (cons_lt_of_ofNat (by omega) (by omega) _ _)

/-- The bytes of characters are in the order of the characters. -/
theorem encode_lt {c d : Char} (h : c < d) (xs ys : List UInt8) :
    String.utf8EncodeChar c ++ xs < String.utf8EncodeChar d ++ ys := by
  have hcode : c.val.toNat < d.val.toNat := h
  have hd : d.val.toNat < 8 * 64 * 64 * 64 := by
    rcases d.valid with hd | ⟨-, hd⟩ <;> omega
  have htwo : Climbs _ (32 * 64) := (climbs_lead 32 192 (by decide)).digit
  have hthree : Climbs _ (16 * 64 * 64) := (climbs_lead 16 224 (by decide)).digit.digit
  have hfour : Climbs _ (8 * 64 * 64 * 64) :=
    (climbs_lead 8 240 (by decide)).digit.digit.digit
  simp only [Nat.div_div_eq_div_mul, Nat.reduceMul] at htwo hthree hfour
  simp only [String.utf8EncodeChar]
  -- by the numbers of bytes; if they differ, the first bytes do
  split_ifs
  any_goals omega
  · exact cons_lt_of_ofNat hcode (by omega) _ _
  · exact cons_lt_of_ofNat (by omega) (by omega) _ _
  · exact cons_lt_of_ofNat (by omega) (by omega) _ _
  · exact cons_lt_of_ofNat (by omega) (by omega) _ _
  · exact htwo _ _ hcode (by omega) xs ys
  · exact cons_lt_of_ofNat (by omega) (by omega) _ _
  · exact cons_lt_of_ofNat (by omega) (by omega) _ _
  · exact hthree _ _ hcode (by omega) xs ys
  · exact cons_lt_of_ofNat (by omega) (by omega) _ _
  · exact hfour _ _ hcode (by omega) xs ys

/-- The bytes of texts are in the order of the texts. -/
theorem bytes_lt : ∀ {a b : List Char}, a < b → bytes a < bytes b
  | [], d :: ds, _ => by
    have hpos : bytes (d :: ds) ≠ [] := by
      intro h
      have hlength := length_bytes (d :: ds)
      rw [h] at hlength
      exact absurd hlength.symm (Nat.ne_of_gt (byteLength_pos_of_cons d ds))
    obtain ⟨x, xs, hbytes⟩ := List.exists_cons_of_ne_nil hpos
    rw [hbytes]
    exact List.nil_lt_cons x xs
  | c :: cs, d :: ds, h => by
    rw [bytes, bytes, List.flatMap_cons, List.flatMap_cons]
    rcases List.cons_lt_cons_iff.mp h with hcd | ⟨rfl, hrest⟩
    · exact encode_lt hcd _ _
    · exact List.append_left_lt (bytes_lt hrest)

/-- Texts come in the order of their bytes. -/
theorem bytes_lt_iff {s t : String} : bytes s.toList < bytes t.toList ↔ s < t := by
  constructor
  · intro h
    rcases lt_trichotomy s t with hst | rfl | hts
    · exact hst
    · exact absurd h (List.lt_irrefl _)
    · exact absurd h (List.lt_asymm (bytes_lt (String.lt_iff_toList_lt.mp hts)))
  · exact fun h => bytes_lt (String.lt_iff_toList_lt.mp h)

end Text

/-! ## Lists with ascending names -/

section Lists

variable {V : Type} {as bs fields : List (String × V)} {name : String} {v : V}

theorem lookup_cons_if (n : String) :
    ((name, v) :: fields).lookup n = if n = name then some v else fields.lookup n := by
  rw [List.lookup_cons]
  split_ifs with hn
  · rw [beq_iff_eq.mpr hn]
  · rw [beq_eq_false_iff_ne.mpr hn]

/-- With another value in the middle, all else is found as before. -/
theorem lookup_middle_if {before : List (String × V)} (old new : V) (behind : List (String × V))
    (h : name ∉ before.map Prod.fst) (n : String) :
    (before ++ (name, new) :: behind).lookup n =
      if n = name then some new else (before ++ (name, old) :: behind).lookup n := by
  rw [← Scope.rebind_middle old new behind h]
  exact Scope.lookup_rebind (by rw [lookup_middle old behind h]; rfl) n

/-- Every name is before those behind it. -/
def NamesAscend (fields : List (String × V)) : Prop := fields.Pairwise fun f g => f.1 < g.1

theorem NamesAscend.nodup (h : NamesAscend fields) : fields.Nodup :=
  List.Pairwise.imp (fun {f g} hlt (heq : f = g) => lt_irrefl g.1 (heq ▸ hlt)) h

theorem NamesAscend.mem_iff_lookup (h : NamesAscend fields) :
    (name, v) ∈ fields ↔ fields.lookup name = some v := by
  constructor
  · intro hmem
    obtain ⟨before, behind, rfl⟩ := List.append_of_mem hmem
    refine lookup_middle v behind ?_
    intro hname
    obtain ⟨field, hfield, heq⟩ := List.mem_map.mp hname
    have hlt : field.1 < name :=
      (List.pairwise_append.mp h).2.2 field hfield (name, v) List.mem_cons_self
    exact lt_irrefl name (heq ▸ hlt)
  · intro hlookup
    obtain ⟨before, behind, rfl, -⟩ := exists_middle hlookup
    exact List.mem_append_right _ List.mem_cons_self

/-- Lists in this order are the same if the same is in them. -/
theorem NamesAscend.eq_of_mem_iff (ha : NamesAscend as) (hb : NamesAscend bs)
    (h : ∀ name v, (name, v) ∈ as ↔ (name, v) ∈ bs) : as = bs := by
  have hperm : as.Perm bs :=
    (List.perm_ext_iff_of_nodup ha.nodup hb.nodup).mpr fun ⟨name, v⟩ => h name v
  exact hperm.eq_of_pairwise (fun _ _ _ _ hlt hgt => absurd hgt (lt_asymm hlt)) ha hb

/-- What is made of the values of a list is found under their names. -/
theorem NamesAscend.mem_map_iff {W : Type} {f : V → W} {w : W} (h : NamesAscend fields) :
    (name, w) ∈ fields.map (fun x => (x.1, f x.2)) ↔
      ∃ v, fields.lookup name = some v ∧ f v = w := by
  simp only [List.mem_map, Prod.mk.injEq, ← h.mem_iff_lookup]
  constructor
  · rintro ⟨field, hfield, rfl, rfl⟩
    exact ⟨field.2, hfield, rfl⟩
  · rintro ⟨v, hv, rfl⟩
    exact ⟨(name, v), hv, rfl, rfl⟩

end Lists

namespace Fields

variable {V : Type} {bound : Option String}

theorem namesAscend (fields : Fields V bound) : NamesAscend fields.toList := fields.ascending

theorem lookup_cons (name : String) (behind : Behind bound name) (value : V)
    (others : Fields V (some name)) (n : String) : (cons name behind value others).lookup n =
      if n = name then some value else others.lookup n :=
  lookup_cons_if n

/-- What is put under a name is found there, and all else as before. -/
theorem lookup_put {bound : Option String} {name : String} (hname : Behind bound name) (new : V)
    (n : String) : ∀ fields : Fields V bound,
      (fields.put name hname new).lookup n = if n = name then some new else fields.lookup n
  | nil => lookup_cons name hname new nil n
  | cons other behind value others => by
    by_cases hlt : name < other
    · rw [put, dif_pos hlt, lookup_cons]
      rfl
    by_cases heq : other = name
    · rw [put, dif_neg hlt, dif_pos heq, lookup_cons, lookup_cons]
      simp only [heq]
      split <;> rfl
    · rw [put, dif_neg hlt, dif_neg heq, lookup_cons, lookup_cons, lookup_put]
      split_ifs with hother hn
      · exact absurd (hother.symm.trans hn) heq
      all_goals rfl

end Fields

/-! ## Values and their parts -/

namespace Value

variable {a b part new : Value} {name : String} {bound : Option String}
  {fields : Fields Value bound}

/-- What is handed on from items and fields to what has them holds of every value. -/
@[elab_as_elim] theorem induction_parts {P : Value → Prop}
    (atom : ∀ ty literal, P (atom ty literal))
    (iterable : ∀ ty items, (∀ item ∈ items, P item) → P (iterable ty items))
    (record : ∀ ty fields methods, (∀ name part, fields.lookup name = some part → P part) →
      P (record ty fields methods)) (v : Value) : P v :=
  @Value.rec P (fun items => ∀ item ∈ items, P item)
    (fun _ fields => ∀ field ∈ fields.toList, P field.2) atom iterable
    (fun ty fields methods hfields => record ty fields methods fun _ _ hpart =>
      hfields _ (fields.namesAscend.mem_iff_lookup.mpr hpart))
    (List.forall_mem_nil _)
    (fun _ _ hvalue hvalues => List.forall_mem_cons.mpr ⟨hvalue, hvalues⟩)
    (List.forall_mem_nil _)
    (fun _ _ _ _ hvalue hothers => List.forall_mem_cons.mpr ⟨hvalue, hothers⟩) v

/-- The part at the end of a path of names. -/
def part? : List String → Value → Option Value
  | [], value => some value
  | name :: place, value => (value.field? name).bind (part? place)

/-- A value with no fields. -/
def withoutFields : Value → Value
  | record ty _ methods => record ty .nil methods
  | other => other

/-- Values are the same if their parts are, each without its fields, which are parts of their
own. -/
theorem eq_of_parts
    (h : ∀ place, (part? place a).map withoutFields = (part? place b).map withoutFields) :
    a = b := by
  induction a using induction_parts generalizing b with
  | atom ty literal =>
    cases b <;> cases Option.some.inj (h [])
    rfl
  | iterable ty items =>
    cases b <;> cases Option.some.inj (h [])
    rfl
  | record ty fields methods ih =>
    cases b with
    | atom | iterable => cases Option.some.inj (h [])
    | record ty' fields' methods' =>
      obtain ⟨rfl, -, rfl⟩ := Value.record.inj (Option.some.inj (h []))
      congr 1
      refine Fields.ext_toList (fields.namesAscend.eq_of_mem_iff fields'.namesAscend ?_)
      intro name v
      rw [fields.namesAscend.mem_iff_lookup, fields'.namesAscend.mem_iff_lookup]
      change fields.lookup name = some v ↔ fields'.lookup name = some v
      suffices heq : fields.lookup name = fields'.lookup name by rw [heq]
      have hname : ∀ place, ((fields.lookup name).bind (part? place)).map withoutFields =
          ((fields'.lookup name).bind (part? place)).map withoutFields :=
        fun place => h (name :: place)
      cases hfound : fields.lookup name <;> cases hfound' : fields'.lookup name <;>
        simp only [hfound, hfound', Option.bind_some, Option.bind_none] at hname
      case none.none => rfl
      case none.some => cases hname []
      case some.none => cases hname []
      case some.some v w => exact congrArg some (ih name v hfound hname)

/-! ## Equality -/

theorem fieldContents_eq_map {bound : Option String} : ∀ fields : Fields Value bound,
    fieldContents fields = fields.toList.map fun f => (f.1, f.2.content)
  | .nil => rfl
  | .cons _ _ _ others => by
    rw [fieldContents, fieldContents_eq_map others, Fields.toList_cons, List.map_cons]

/-- Records are compared as maps: what is found under a name in one of them is found in the
other. -/
theorem same_record_iff {s t : Ty} {as bs : Fields Value none}
    {ms ns : List ((String × Nat) × Nat)} :
    (record s as ms).same (record t bs ns) = true ↔ s.same t = true ∧
      ∀ name, Option.Rel (fun v w => v.same w = true) (as.lookup name) (bs.lookup name) := by
  have ha := as.namesAscend
  have hb := bs.namesAscend
  rw [same, Bool.and_eq_true, sameFields_iff, fieldContents_eq_map, fieldContents_eq_map]
  simp only [Fields.lookup]
  refine and_congr_right fun _ => ?_
  constructor
  · intro heq name
    have hmem : ∀ c, (∃ v, as.toList.lookup name = some v ∧ v.content = c) ↔
        ∃ w, bs.toList.lookup name = some w ∧ w.content = c := by
      intro c
      rw [← ha.mem_map_iff, heq, hb.mem_map_iff]
    cases hv : as.toList.lookup name with
    | some v =>
      obtain ⟨w, hw, hcontent⟩ := (hmem _).mp ⟨v, hv, rfl⟩
      rw [hw]
      exact .some (same_iff.mpr hcontent.symm)
    | none =>
      cases hw : bs.toList.lookup name with
      | some w =>
        obtain ⟨v, hv', -⟩ := (hmem _).mpr ⟨w, hw, rfl⟩
        cases hv.symm.trans hv'
      | none => exact .none
  · intro h
    refine NamesAscend.eq_of_mem_iff (List.pairwise_map.mpr ha) (List.pairwise_map.mpr hb) ?_
    intro name c
    rw [ha.mem_map_iff, hb.mem_map_iff]
    have hname := h name
    revert hname
    generalize as.toList.lookup name = x, bs.toList.lookup name = y
    rintro (⟨hsame⟩ | _)
    · simp [same_iff.mp hsame]
    · rfl

/-! ## What texts show -/

/-- The text shows the value. A record is shown by its type and all its fields, each once, in the
order of the bytes of their names. -/
inductive Shown : Value → String → Prop
  /-- a constant is shown as it is written -/
  | atom (ty : Ty) (literal : Literal) : Shown (atom ty literal) (literalText literal)
  /-- items are shown one after the other -/
  | iterable {ty : Ty} {items : List Value} {texts : List String} :
    List.Forall₂ Shown items texts →
    Shown (iterable ty items) ("[" ++ ", ".intercalate texts ++ "]")
  /-- fields are shown behind their names -/
  | record {ty : Ty} {fields : Fields Value none} {methods : List ((String × Nat) × Nat)}
    {shown : List (String × String)} :
    shown.Pairwise (fun f g => Text.bytes f.1.toList < Text.bytes g.1.toList) →
    (∀ name, name ∈ shown.map Prod.fst ↔ ((record ty fields methods).field? name).isSome) →
    (∀ name text, (name, text) ∈ shown →
      ∀ part, (record ty fields methods).field? name = some part → Shown part text) →
    Shown (record ty fields methods) (ty.name ++ " \x7b " ++
      ", ".intercalate (shown.map fun f => f.1 ++ ": " ++ f.2) ++ " \x7d")

theorem itemTexts_eq_map (items : List Value) : itemTexts items = items.map text := by
  induction items with
  | nil => rfl
  | cons item items ih => rw [itemTexts, ih, List.map_cons]

theorem fieldTexts_eq_map {bound : Option String} : ∀ fields : Fields Value bound,
    fieldTexts fields = fields.toList.map fun f => f.1 ++ ": " ++ f.2.text
  | .nil => rfl
  | .cons _ _ _ others => by
    rw [fieldTexts, fieldTexts_eq_map others, Fields.toList_cons, List.map_cons]

/-- Fields with the texts of their values. -/
def shownFields (fields : Fields Value none) : List (String × String) :=
  fields.toList.map fun f => (f.1, f.2.text)

theorem text_record (ty : Ty) (fields : Fields Value none)
    (methods : List ((String × Nat) × Nat)) : (record ty fields methods).text =
      ty.name ++ " \x7b " ++
        ", ".intercalate ((shownFields fields).map fun f => f.1 ++ ": " ++ f.2) ++ " \x7d" := by
  rw [text, fieldTexts_eq_map, shownFields, List.map_map]
  rfl

/-- A name has a text among the fields if it has a value with the text. -/
theorem mem_shownFields {fields : Fields Value none} {t : String} :
    (name, t) ∈ shownFields fields ↔ ∃ part, fields.lookup name = some part ∧ part.text = t :=
  fields.namesAscend.mem_map_iff

theorem mem_names_shownFields {fields : Fields Value none} :
    name ∈ (shownFields fields).map Prod.fst ↔ (fields.lookup name).isSome := by
  rw [Option.isSome_iff_exists]
  constructor
  · intro hname
    obtain ⟨⟨n, t⟩, ht, rfl⟩ := List.mem_map.mp hname
    obtain ⟨part, hpart, -⟩ := mem_shownFields.mp ht
    exact ⟨part, hpart⟩
  · rintro ⟨part, hpart⟩
    exact List.mem_map_of_mem (mem_shownFields.mpr ⟨part, hpart, rfl⟩)

/-- Fields are listed with their texts in one way. -/
theorem eq_shownFields {fields : Fields Value none} {shown : List (String × String)}
    (hshown : NamesAscend shown)
    (hnames : ∀ name, name ∈ shown.map Prod.fst ↔ (fields.lookup name).isSome)
    (htexts : ∀ name t, (name, t) ∈ shown → ∀ part, fields.lookup name = some part →
      t = part.text) : shown = shownFields fields := by
  refine hshown.eq_of_mem_iff (List.pairwise_map.mpr fields.namesAscend) ?_
  intro name t
  rw [mem_shownFields]
  constructor
  · intro ht
    obtain ⟨part, hpart⟩ :=
      Option.isSome_iff_exists.mp ((hnames name).mp (List.mem_map_of_mem ht))
    exact ⟨part, hpart, (htexts name t ht part hpart).symm⟩
  · rintro ⟨part, hpart, rfl⟩
    obtain ⟨⟨n, t⟩, ht, rfl⟩ :=
      List.mem_map.mp ((hnames name).mpr (Option.isSome_iff_exists.mpr ⟨part, hpart⟩))
    rwa [← htexts n t ht part hpart]

theorem forall₂_iff_eq_map {α β : Type} {R : α → β → Prop} {f : α → β} {xs : List α} {ys : List β}
    (h : ∀ x ∈ xs, ∀ y, R x y ↔ y = f x) : List.Forall₂ R xs ys ↔ ys = xs.map f := by
  induction xs generalizing ys with
  | nil => rw [List.forall₂_nil_left_iff, List.map_nil]
  | cons x xs ih =>
    obtain ⟨hx, hxs⟩ := List.forall_mem_cons.mp h
    rw [List.forall₂_cons_left_iff, List.map_cons]
    constructor
    · rintro ⟨y, ys, hy, hys, rfl⟩
      rw [(hx y).mp hy, (ih hxs).mp hys]
    · rintro rfl
      exact ⟨_, _, (hx _).mpr rfl, (ih hxs).mpr rfl, rfl⟩

/-- A value has one text that shows it. -/
theorem shown_iff (a : Value) (t : String) : Shown a t ↔ t = a.text := by
  induction a using induction_parts generalizing t with
  | atom ty literal =>
    constructor
    · rintro ⟨⟩
      rfl
    · rintro rfl
      exact .atom ty literal
  | iterable ty items ih =>
    rw [text, itemTexts_eq_map]
    constructor
    · intro h
      cases h with
      | iterable htexts => rw [(forall₂_iff_eq_map ih).mp htexts]
    · rintro rfl
      exact .iterable ((forall₂_iff_eq_map ih).mpr rfl)
  | record ty fields methods ih =>
    rw [text_record]
    constructor
    · intro h
      cases h with
      | record horder hnames htexts =>
        have horder := horder.imp Text.bytes_lt_iff.mp
        rw [eq_shownFields horder hnames fun name t ht part hlookup =>
          (ih name part hlookup t).mp (htexts name t ht part hlookup)]
    · rintro rfl
      refine .record ?_ (fun name => mem_names_shownFields) ?_
      · exact List.pairwise_map.mpr (fields.namesAscend.imp Text.bytes_lt_iff.mpr)
      · intro name t ht part hfound
        obtain ⟨part', hlookup, rfl⟩ := mem_shownFields.mp ht
        obtain rfl := Option.some.inj (hlookup.symm.trans hfound)
        exact (ih name _ hlookup _).mpr rfl

end Value

end TeachLang
