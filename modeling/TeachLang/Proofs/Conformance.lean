import TeachLang.Proofs.Representation
import TeachLang.Proofs.Resolution

/-!
# Values conform to types

A value **conforms** to a type if it is the value that stands for no value, or its tag may stand for
the type and the value is **sound**: it is made of what its tag says, and a record has all fields of
its type, again with conforming values.

What a record's methods do lies outside the language. A `World` says which types there are and which
handles stand for which methods. Its types are **coherent** if those of one name have the same
members; then conforming to a type is a matter of its name.
-/

namespace TeachLang

/-- The types that there are, and the methods that handles of records stand for. -/
structure World where
  /-- the types that there are -/
  known : Ty → Prop
  /-- which handles stand for a method of a signature -/
  offers : Signature → Nat → Prop

/-- Two signatures with types of the same names. -/
def Signature.Alike (f g : Signature) : Prop :=
  f.parameters.map Ty.name = g.parameters.map Ty.name ∧ f.result.name = g.result.name

namespace World

/-- The types are closed under members, and types of one name have the same members. -/
structure Coherent (W : World) : Prop where
  /-- the built-in types -/
  builtin : ∀ {ty}, ty ∈ Ty.builtins → W.known ty
  /-- the types of fields -/
  field : ∀ {ty n v}, W.known ty → ty.field? n = some v → W.known v.ty
  /-- the types in signatures of methods -/
  method : ∀ {ty n k f}, W.known ty → ty.method? n k = some f →
    (∀ parameter ∈ f.parameters, W.known parameter) ∧ W.known f.result
  /-- fields of types of one name -/
  fields : ∀ {a b n v}, W.known a → W.known b → a.name = b.name → a.field? n = some v →
    ∃ w, b.field? n = some w ∧ v.ty.name = w.ty.name
  /-- methods of types of one name -/
  methods : ∀ {a b n k f}, W.known a → W.known b → a.name = b.name → a.method? n k = some f →
    ∃ g, b.method? n k = some g ∧ f.Alike g

/-- A value has the tag of no value, or one that may stand for a type. -/
def Suits (ty : Ty) (value : Value) : Prop :=
  value.ty.name = Ty.nil.name ∨ ty.isAssignable value.ty

/-- A value is made of what its tag says, and so are the fields that its type gives it. -/
inductive Sound (W : World) : Value → Prop where
  /-- constants are tagged as such -/
  | atom {ty : Ty} {literal : Literal} :
    ty.name = literal.ty.name → W.Sound (.atom ty literal)
  /-- only whole numbers are iterated over -/
  | iterable {ty : Ty} {items : List Value} :
    ty.name = Ty.integerIterable.name → (∀ item ∈ items, item.IsInteger) →
    W.Sound (.iterable ty items)
  /-- a record has every field of its type, and its methods are those that their handles stand
  for -/
  | record {ty : Ty} {fields : Fields Value none} {methods : List ((String × Nat) × Nat)} :
    (∀ builtin ∈ Ty.builtins, ty.name ≠ builtin.name) → W.known ty →
    (∀ n v, ty.field? n = some v → ∃ part, fields.lookup n = some part ∧ Suits v.ty part) →
    (∀ n v part, ty.field? n = some v → fields.lookup n = some part → W.Sound part) →
    (∀ n k f handle, ty.method? n k = some f → methods.lookup (n, k) = some handle →
      W.offers f handle) →
    W.Sound (.record ty fields methods)

/-- A value conforms to a type. -/
structure Conforms (W : World) (ty : Ty) (value : Value) : Prop where
  /-- it is no value, or its tag may stand for the type -/
  suits : Suits ty value
  /-- it is made of what its tag says -/
  sound : W.Sound value

variable {W : World} {a b ty : Ty} {value left right : Value}

theorem Sound.represented (h : W.Sound value) : value.Represented := by
  cases h with
  | atom hname => exact .atom hname
  | iterable hname hitems => exact .iterable hname hitems
  | record hname => exact .record hname

/-! ## Types -/

namespace Conforms

theorem ofLiteral (literal : Literal) : W.Conforms literal.ty (.ofLiteral literal) :=
  ⟨.inr (Ty.isAssignable_iff.mpr (.inl rfl)), .atom rfl⟩

/-- No value conforms to every type. -/
theorem nil (ty : Ty) : W.Conforms ty .nil := ⟨.inl rfl, .atom rfl⟩

theorem ofInteger (h : value.IsInteger) : W.Conforms .integer value := by
  cases h with
  | intro n hname => exact ⟨.inr (Ty.isAssignable_iff.mpr (.inl hname.symm)), .atom hname⟩

theorem of_isAssignable (hab : a.isAssignable b) (h : W.Conforms b value) : W.Conforms a value :=
  ⟨h.suits.imp_right (Ty.isAssignable_trans hab), h.sound⟩

theorem of_name_eq (hab : a.name = b.name) (h : W.Conforms b value) : W.Conforms a value :=
  h.of_isAssignable (Ty.isAssignable_iff.mpr (.inl hab))

theorem all_of_name_eq {as bs : List Ty} {values : List Value}
    (hab : as.map Ty.name = bs.map Ty.name) (h : List.Forall₂ W.Conforms bs values) :
    List.Forall₂ W.Conforms as values := by
  induction h generalizing as with
  | nil =>
    obtain rfl := List.map_eq_nil_iff.mp hab
    exact .nil
  | cons hvalue _ ih =>
    obtain ⟨a, as, rfl, ha, has⟩ := List.map_eq_cons_iff.mp hab
    exact .cons (hvalue.of_name_eq ha) (ih has)

/-- The tag of a value that conforms to a type which stands for no other. -/
theorem name_eq (h : W.Conforms ty value) (hany : ty.name ≠ Ty.any.name)
    (hcomparable : ty.name ≠ Ty.comparable.name) :
    value.ty.name = Ty.nil.name ∨ value.ty.name = ty.name :=
  h.suits.imp_right fun hassignable => Ty.name_eq_of_isAssignable hassignable hany hcomparable

/-- The form of a constant that conforms to the type of constants. -/
theorem literal_name_eq {s : Ty} {literal : Literal} (h : W.Conforms ty (.atom s literal))
    (form : Literal) (hty : ty.name = form.ty.name) : literal.Alike .nil ∨ literal.Alike form := by
  obtain ⟨hany, hcomparable, -⟩ := form.ty_name_ne
  rw [← hty] at hany hcomparable
  cases h.sound with
  | atom hname =>
    rcases h.name_eq hany hcomparable with hnil | heq
    · exact .inl (Literal.alike_of_name_eq (hname.symm.trans hnil))
    · exact .inr (Literal.alike_of_name_eq (hname.symm.trans (heq.trans hty)))

/-- A record that conforms to a type that has members has a type of that name. -/
theorem name_eq_of_record {s : Ty} {fields : Fields Value none}
    {methods : List ((String × Nat) × Nat)} (h : W.Conforms ty (.record s fields methods))
    (hmembers : ∀ builtin ∈ Ty.builtins, ty.name ≠ builtin.name) : ty.name = s.name := by
  cases h.sound with
  | record hname =>
    have hany := hmembers .any (by simp [Ty.builtins])
    have hcomparable := hmembers .comparable (by simp [Ty.builtins])
    rcases h.name_eq hany hcomparable with hnil | heq
    · exact absurd hnil (hname .nil (by simp [Ty.builtins]))
    · exact heq.symm

/-! ## Operators -/

/-- A run may end as it likes, but what it ends with must be good. -/
abbrev OnlyGives {α : Type} (good : α → Prop) (result : Except Diagnostic α) : Prop :=
  Answers good (fun _ => True) result

theorem onlyGives_of_ok {α : Type} {good : α → Prop} {result : Except Diagnostic α}
    (h : ∀ found, result = .ok found → good found) : OnlyGives good result := by
  cases result with
  | ok found => exact h found rfl
  | error d => trivial

theorem ordered (position : Position) (holds : Ordering → Bool) :
    OnlyGives (W.Conforms .boolean) (Value.ordered left right position holds) := by
  unfold Value.ordered
  split
  · exact ofLiteral (.boolean _)
  · trivial

/-- What is computed is a number of the type of both operands. -/
theorem arithmetic (hl : W.Conforms a left) (hr : W.Conforms b right)
    (hnumbers : (a.name = Ty.integer.name ∧ b.name = Ty.integer.name ∧ ty = .integer) ∨
      ((a.name = Ty.decimal.name ∨ b.name = Ty.decimal.name) ∧ ty = .decimal))
    (position : Position) (whole : Int → Int → Int) (fraction : Decimal → Decimal → Decimal) :
    OnlyGives (W.Conforms ty) (Value.arithmetic left right position whole fraction) := by
  unfold Value.arithmetic
  split
  · next s x t y =>
    rcases hnumbers with ⟨-, -, rfl⟩ | ⟨ha | hb, -⟩
    · exact ofLiteral (.integer _)
    · exact ((hl.literal_name_eq (.decimal default) ha).elim id id).elim
    · exact ((hr.literal_name_eq (.decimal default) hb).elim id id).elim
  · next s x t y =>
    rcases hnumbers with ⟨ha, -, -⟩ | ⟨-, rfl⟩
    · exact ((hl.literal_name_eq (.integer 0) ha).elim id id).elim
    · exact ofLiteral (.decimal _)
  · trivial

/-- Only no value and texts conform to the type of texts, and no value cannot be computed with. -/
theorem arithmetic_of_string (hl : W.Conforms a left) (hr : W.Conforms b right)
    (hstring : a.name = Ty.string.name ∨ b.name = Ty.string.name) (good : Value → Prop)
    (position : Position) (whole : Int → Int → Int) (fraction : Decimal → Decimal → Decimal) :
    OnlyGives good (Value.arithmetic left right position whole fraction) := by
  unfold Value.arithmetic
  split
  · rcases hstring with ha | hb
    · exact ((hl.literal_name_eq (.string "") ha).elim id id).elim
    · exact ((hr.literal_name_eq (.string "") hb).elim id id).elim
  · rcases hstring with ha | hb
    · exact ((hl.literal_name_eq (.string "") ha).elim id id).elim
    · exact ((hr.literal_name_eq (.string "") hb).elim id id).elim
  · trivial

/-- A text conforms to no type of numbers. -/
theorem isText_eq_false (h : W.Conforms ty value) (form : Literal) (hty : ty.name = form.ty.name)
    (hform : ¬ form.Alike (.string "")) : value.isText = false := by
  cases hvalue : value.isText with
  | false => rfl
  | true =>
    unfold Value.isText at hvalue
    split at hvalue
    · next s x =>
      -- the tag may also be that of no value, which is no text either
      rcases h.literal_name_eq form hty with hnil | halike
      · exact hnil.elim
      · cases form with
        | string x => exact absurd trivial hform
        | _ => exact halike.elim
    · cases hvalue

/-- A sum is of the type of its table. Texts are put together whenever one of the operands is a
text, which the types of numbers rule out. -/
theorem plus (hty : Operator.plus.result? a b = some ty) (hl : W.Conforms a left)
    (hr : W.Conforms b right) (position : Position) :
    OnlyGives (W.Conforms ty) (Value.apply .plus left right position) := by
  rw [Value.apply]
  split
  · next htext =>
    rcases Operator.result?_plus hty with ⟨-, rfl⟩ | ⟨ha, hb, -⟩ | ⟨ha, hb, -⟩
    · exact ofLiteral (.string _)
    · rw [hl.isText_eq_false (.integer 0) ha id,
        hr.isText_eq_false (.integer 0) hb id] at htext
      cases htext
    · rw [hl.isText_eq_false (.decimal default) ha id,
        hr.isText_eq_false (.decimal default) hb id] at htext
      cases htext
  · rcases Operator.result?_plus hty with ⟨hstring, -⟩ | hintegers | ⟨ha, -, rfl⟩
    · exact hl.arithmetic_of_string hr hstring _ position _ _
    · exact hl.arithmetic hr (.inl hintegers) position _ _
    · exact hl.arithmetic hr (.inr ⟨.inl ha, rfl⟩) position _ _

/-- What an operator gives conforms to the type of its table. -/
theorem apply {operator : Operator} (hty : operator.result? a b = some ty)
    (hl : W.Conforms a left) (hr : W.Conforms b right) (position : Position) :
    OnlyGives (W.Conforms ty) (Value.apply operator left right position) := by
  have hlogic : operator = .and ∨ operator = .or → ∀ f : Bool → Bool → Bool,
      OnlyGives (W.Conforms ty) (do
        let x ← left.truth position
        let y ← right.truth position
        return Value.boolean (f x y)) := by
    intro ho f
    obtain ⟨-, -, rfl⟩ := Operator.result?_logic ho hty
    apply onlyGives_of_ok
    intro found hfound
    obtain ⟨x, -, hfound⟩ := ok_of_bind hfound
    obtain ⟨y, -, hfound⟩ := ok_of_bind hfound
    obtain rfl := Except.ok.inj hfound
    exact ofLiteral (.boolean (f x y))
  have hnumbers : operator = .minus ∨ operator = .multiply ∨ operator = .divide →
      ∀ whole fraction, OnlyGives (W.Conforms ty)
        (Value.arithmetic left right position whole fraction) :=
    fun ho whole fraction =>
      hl.arithmetic hr (Operator.result?_arithmetic ho hty) position whole fraction
  cases operator with
  | and => exact hlogic (.inl rfl) (· && ·)
  | or => exact hlogic (.inr rfl) (· || ·)
  | equals | notEquals =>
    obtain rfl := Operator.result?_comparison rfl hty
    exact ofLiteral (.boolean _)
  | less | lessEquals | greater | greaterEquals =>
    obtain rfl := Operator.result?_comparison rfl hty
    exact ordered position _
  | minus => exact hnumbers (.inl rfl) _ _
  | multiply => exact hnumbers (.inr (.inl rfl)) _ _
  | divide =>
    rw [Value.apply]
    split
    · trivial
    · exact hnumbers (.inr (.inr rfl)) _ _
  | plus => exact plus hty hl hr position

end Conforms

/-! ## Members -/

/-- Built-in types have no fields, under whatever name they are known. -/
theorem Coherent.name_ne_of_field (hW : W.Coherent) {n : String} {v : Variable}
    (hknown : W.known ty) (hv : ty.field? n = some v) :
    ∀ builtin ∈ Ty.builtins, ty.name ≠ builtin.name := by
  intro builtin hbuiltin hname
  obtain ⟨w, hw, -⟩ := hW.fields hknown (hW.builtin hbuiltin) hname hv
  rw [(Ty.memberless_of_mem_builtins hbuiltin).field?_eq_none] at hw
  cases hw

/-- Nor do they have methods. -/
theorem Coherent.name_ne_of_method (hW : W.Coherent) {n : String} {k : Nat} {f : Signature}
    (hknown : W.known ty) (hf : ty.method? n k = some f) :
    ∀ builtin ∈ Ty.builtins, ty.name ≠ builtin.name := by
  intro builtin hbuiltin hname
  obtain ⟨g, hg, -⟩ := hW.methods hknown (hW.builtin hbuiltin) hname hf
  rw [(Ty.memberless_of_mem_builtins hbuiltin).method?_eq_none] at hg
  cases hg

/-- A field of a record that conforms to a type conforms to the type that this gives it. -/
theorem Coherent.field_conforms (hW : W.Coherent) {n : String} {v : Variable} {part : Value}
    (hknown : W.known ty) (hv : ty.field? n = some v) (h : W.Conforms ty value)
    (hpart : value.field? n = some part) : W.Conforms v.ty part := by
  cases value with
  | record s fields methods =>
    have hname := h.name_eq_of_record (hW.name_ne_of_field hknown hv)
    cases h.sound with
    | record _ hs hfields hsound _ =>
      -- the record may have another type of that name, with fields of types of the same names
      obtain ⟨w, hw, hvw⟩ := hW.fields hknown hs hname hv
      obtain ⟨found, hfound, hsuits⟩ := hfields n w hw
      obtain rfl := Option.some.inj (hfound.symm.trans hpart)
      exact Conforms.of_name_eq hvw ⟨hsuits, hsound n w found hw hfound⟩
  | _ => cases hpart

/-- A record stays sound when a field gets another value that conforms to its type. -/
theorem Coherent.withField_conforms (hW : W.Coherent) {n : String} {v : Variable}
    {part new : Value} (hknown : W.known ty) (hv : ty.field? n = some v) (h : W.Conforms ty value)
    (hpart : value.field? n = some part) (hnew : W.Conforms v.ty new) :
    W.Conforms ty (value.withField n new) := by
  cases value with
  | record s fields methods =>
    have hname := h.name_eq_of_record (hW.name_ne_of_field hknown hv)
    have hlookup := fields.lookup_set (Option.isSome_iff_exists.mpr ⟨part, hpart⟩) new
    cases h.sound with
    | record hbuiltin hs hfields hsound hmethods =>
      obtain ⟨w, hw, hvw⟩ := hW.fields hknown hs hname hv
      have hnew' : W.Conforms w.ty new := hnew.of_name_eq hvw.symm
      refine ⟨h.suits, .record hbuiltin hs (fun n' v' hv' => ?_) (fun n' v' part' hv' hpart' => ?_)
        hmethods⟩
      · rw [hlookup]
        split
        · next heq =>
          obtain rfl := Option.some.inj ((heq ▸ hv').symm.trans hw)
          exact ⟨new, rfl, hnew'.suits⟩
        · exact hfields n' v' hv'
      · rw [hlookup] at hpart'
        split at hpart'
        · obtain rfl := Option.some.inj hpart'
          exact hnew'.sound
        · exact hsound n' v' part' hv' hpart'
  | _ => cases hpart

/-- The methods of records answer as their signatures say. -/
def Keeps (W : World) (host : Host) : Prop :=
  ∀ f handle, W.offers f handle → ∀ receiver arguments, W.Sound receiver →
    List.Forall₂ W.Conforms f.parameters arguments →
    ∀ result, host handle receiver arguments = .ok result → W.Conforms f.result result

/-- What a method of a record answers conforms to the result that the type of the record says. -/
theorem Coherent.callMethod_conforms (hW : W.Coherent) {host : Host} (hhost : W.Keeps host)
    {n : String} {f : Signature} {arguments : List Value} {result : Value} {position : Position}
    (hknown : W.known ty) (hf : ty.method? n arguments.length = some f) (h : W.Conforms ty value)
    (harguments : List.Forall₂ W.Conforms f.parameters arguments)
    (hresult : value.callMethod host n arguments position = .ok result) :
    W.Conforms f.result result := by
  rw [Value.callMethod] at hresult
  split at hresult
  · next handle hhandle =>
    cases value with
    | record s fields methods =>
      have hname := h.name_eq_of_record (hW.name_ne_of_method hknown hf)
      have hrecord := h.sound
      cases h.sound with
      | record _ hs _ _ hmethods =>
        obtain ⟨g, hg, hparameters, hfg⟩ := hW.methods hknown hs hname hf
        have hanswer := hhost g handle (hmethods n _ g handle hg hhandle) _ arguments hrecord
          (Conforms.all_of_name_eq hparameters.symm harguments) result hresult
        exact hanswer.of_name_eq hfg
    | _ => cases hhandle
  · cases hresult

end World

/-! ## The discipline -/

/-- Methods return what their result types take. -/
def Restriction.returning : Restriction :=
  { Restriction.free with returned := fun result ty => result.isAssignable ty }

/-- Values conform to types, and a run may fail for whatever reason. -/
def Discipline.conformance (W : World) (host : Host) : Discipline where
  toRestriction := .returning
  known := W.known
  host := host
  conforms := W.Conforms
  tolerates _ := True

theorem Discipline.conformance_lawful {W : World} (hW : W.Coherent) {host : Host}
    (hhost : W.Keeps host) : (Discipline.conformance W host).Lawful where
  closed := ⟨hW.builtin, id, hW.field, hW.method⟩
  literal := World.Conforms.ofLiteral
  accepts haccepts h := h.of_isAssignable haccepts.2
  unset _ _ := World.Conforms.nil _
  ends _ _ := World.Conforms.nil _
  returned hreturned _ h := h.of_isAssignable hreturned
  apply _ hty hl hr position := hl.apply hty hr position
  truth _ position := World.Conforms.onlyGives_of_ok fun _ _ => trivial
  elements {value} h position := by
    have hsound := h.sound
    cases value with
    | iterable ty items =>
      cases hsound with
      | iterable _ hitems => exact fun item hitem => .ofInteger (hitems item hitem)
    | _ => trivial
  field {owner n v value} hknown hv h position := by
    apply World.Conforms.onlyGives_of_ok
    intro part hpart
    rw [Value.field] at hpart
    split at hpart
    · next found hfound =>
      obtain rfl := Except.ok.inj hpart
      exact hW.field_conforms hknown hv h hfound
    · cases hpart
  withField hknown hv h hpart hnew := hW.withField_conforms hknown hv h hpart hnew
  method hknown hf h harguments position :=
    World.Conforms.onlyGives_of_ok fun _ hresult =>
      hW.callMethod_conforms hhost hknown hf h harguments hresult

end TeachLang
