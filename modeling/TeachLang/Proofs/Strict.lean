import TeachLang.Proofs.Representation
import TeachLang.Proofs.Resolution

/-!
# Strict programs are safe

A program is **strict** if every variable has a first value, methods return what they declare and
do so on every path, and operators get operands of one type. In a strict program values always
have the types that checking found, so its runs have no fault but division by zero, which no type
rules out.
-/

namespace TeachLang

/-- What a strict program keeps to. Operands of one type are asked for by orders, which are those of
the types with an order, and by arithmetic other than sums. -/
def Restriction.strict : Restriction where
  operands operator a b :=
    match operator with
    | .less | .lessEquals | .greater | .greaterEquals => a.same b ∧ ∃ ty ∈ Ty.ordered, a.same ty
    | .minus | .multiply | .divide => a.same b
    | _ => True
  unset := False
  returned result ty := result.isAssignable ty
  ends result := result.same .nil ∨ result.same .any

/-- A value has a type: its tag may stand for it, and it is made of what its tag says. -/
structure Value.Has (ty : Ty) (value : Value) : Prop where
  /-- the tag may stand for the type -/
  assignable : ty.isAssignable value.ty
  /-- the value is made of what its tag says -/
  represented : value.Represented

namespace Value.Has

variable {ty a b : Ty} {value left right : Value}

/-- A value has its own type. -/
theorem of_ty {value : Value} (h : value.Represented) : value.Has value.ty :=
  ⟨Ty.isAssignable_iff.mpr (.inl rfl), h⟩

theorem ofLiteral (literal : Literal) : (Value.ofLiteral literal).Has literal.ty :=
  of_ty (represented_ofLiteral literal)

/-- The tag of a value that has a type which stands for no other. -/
theorem name_eq (h : value.Has ty) {target : Ty} (hty : ty.name = target.name)
    (hany : target.name ≠ Ty.any.name) (hcomparable : target.name ≠ Ty.comparable.name) :
    value.ty.name = target.name := by
  rw [← hty] at hany hcomparable ⊢
  exact Ty.name_eq_of_isAssignable h.assignable hany hcomparable

theorem boolean (h : value.Has ty) (hty : ty.name = Ty.boolean.name) :
    ∃ ty b, value = .atom ty (.boolean b) :=
  h.represented.boolean (h.name_eq hty (by decide) (by decide))

theorem integer (h : value.Has ty) (hty : ty.name = Ty.integer.name) :
    ∃ ty n, value = .atom ty (.integer n) :=
  h.represented.integer (h.name_eq hty (by decide) (by decide))

theorem decimal (h : value.Has ty) (hty : ty.name = Ty.decimal.name) :
    ∃ ty d, value = .atom ty (.decimal d) :=
  h.represented.decimal (h.name_eq hty (by decide) (by decide))

theorem character (h : value.Has ty) (hty : ty.name = Ty.character.name) :
    ∃ ty c, value = .atom ty (.character c) :=
  h.represented.character (h.name_eq hty (by decide) (by decide))

theorem string (h : value.Has ty) (hty : ty.name = Ty.string.name) :
    ∃ ty s, value = .atom ty (.string s) :=
  h.represented.string (h.name_eq hty (by decide) (by decide))

theorem items (h : value.Has ty) (hty : ty.name = Ty.integerIterable.name) :
    ∃ ty items, value = .iterable ty items ∧ ∀ item ∈ items, IsInteger item :=
  h.represented.items (h.name_eq hty (by decide) (by decide))

/-! ## Operators -/

/-- Two values of one type with an order can be ordered. -/
theorem order? (hl : left.Has a) (hr : right.Has b) (hsame : a.same b)
    (hordered : ∃ ty ∈ Ty.ordered, a.same ty) : ∃ order, Value.order? left right = some order := by
  obtain ⟨ty, hty, ha⟩ := hordered
  rw [Ty.same_iff] at hsame ha
  have hb : b.name = ty.name := hsame ▸ ha
  simp only [Ty.ordered, List.mem_cons, List.not_mem_nil, or_false] at hty
  rcases hty with rfl | rfl | rfl | rfl
  · obtain ⟨s, x, rfl⟩ := hl.integer ha
    obtain ⟨t, y, rfl⟩ := hr.integer hb
    exact ⟨_, rfl⟩
  · obtain ⟨s, x, rfl⟩ := hl.decimal ha
    obtain ⟨t, y, rfl⟩ := hr.decimal hb
    exact ⟨_, rfl⟩
  · obtain ⟨s, x, rfl⟩ := hl.character ha
    obtain ⟨t, y, rfl⟩ := hr.character hb
    exact ⟨_, rfl⟩
  · obtain ⟨s, x, rfl⟩ := hl.string ha
    obtain ⟨t, y, rfl⟩ := hr.string hb
    exact ⟨_, rfl⟩

/-- Values of one ordered type can be compared. -/
theorem ordered (hl : left.Has a) (hr : right.Has b) (hsame : a.same b)
    (hordered : ∃ ty ∈ Ty.ordered, a.same ty) (position : Position) (holds : Ordering → Bool) :
    Answers (Has .boolean) (·.fault = .divisionByZero)
      (Value.ordered left right position holds) := by
  obtain ⟨order, horder⟩ := hl.order? hr hsame hordered
  rw [Value.ordered, horder]
  exact ofLiteral (.boolean (holds order))

/-- Two numbers of one type can be computed with. -/
theorem arithmetic (hl : left.Has a) (hr : right.Has b)
    (hnumbers : (a.name = Ty.integer.name ∧ b.name = Ty.integer.name ∧ ty = .integer) ∨
      (a.name = Ty.decimal.name ∧ b.name = Ty.decimal.name ∧ ty = .decimal))
    (position : Position) (whole : Int → Int → Int) (fraction : Decimal → Decimal → Decimal) :
    Answers (Has ty) (·.fault = .divisionByZero)
      (Value.arithmetic left right position whole fraction) := by
  rcases hnumbers with ⟨ha, hb, rfl⟩ | ⟨ha, hb, rfl⟩
  · obtain ⟨s, x, rfl⟩ := hl.integer ha
    obtain ⟨t, y, rfl⟩ := hr.integer hb
    exact ofLiteral (.integer (whole x y))
  · obtain ⟨s, x, rfl⟩ := hl.decimal ha
    obtain ⟨t, y, rfl⟩ := hr.decimal hb
    exact ofLiteral (.decimal (fraction x y))

theorem isText (h : value.Has a) (ha : a.name = Ty.string.name) : value.isText := by
  obtain ⟨s, x, rfl⟩ := h.string ha
  rfl

/-- A sum answers with a value of the type of its table. Only a text is of the type of texts, so the
types tell what is put together and what is added. -/
theorem plus (hty : Operator.plus.result? a b = some ty) (hl : left.Has a) (hr : right.Has b)
    (position : Position) :
    Answers (Has ty) (·.fault = .divisionByZero) (Value.apply .plus left right position) := by
  rw [Value.apply]
  split
  · next htext =>
    rcases Operator.result?_plus hty with ⟨-, rfl⟩ | ⟨ha, hb, -⟩ | ⟨ha, hb, -⟩
    · exact ofLiteral (.string _)
    · obtain ⟨s, x, rfl⟩ := hl.integer ha
      obtain ⟨t, y, rfl⟩ := hr.integer hb
      cases htext
    · obtain ⟨s, x, rfl⟩ := hl.decimal ha
      obtain ⟨t, y, rfl⟩ := hr.decimal hb
      cases htext
  · next htext =>
    rcases Operator.result?_plus hty with ⟨ha | hb, -⟩ | hintegers | hdecimals
    · exact absurd (by rw [hl.isText ha, Bool.true_or]) htext
    · exact absurd (by rw [hr.isText hb, Bool.or_true]) htext
    · exact hl.arithmetic hr (.inl hintegers) position _ _
    · exact hl.arithmetic hr (.inr hdecimals) position _ _

/-- An operator that is given operands as a strict program gives them answers with a value of the
type of its table, unless it divides by zero. -/
theorem apply {operator : Operator} (hoperands : Restriction.strict.operands operator a b)
    (hty : operator.result? a b = some ty) (hl : left.Has a) (hr : right.Has b)
    (position : Position) :
    Answers (Has ty) (·.fault = .divisionByZero) (Value.apply operator left right position) := by
  have hlogic : operator = .and ∨ operator = .or → ∀ f : Bool → Bool → Bool,
      Answers (Has ty) (·.fault = .divisionByZero) (do
        let x ← left.truth position
        let y ← right.truth position
        return Value.boolean (f x y)) := by
    intro ho f
    obtain ⟨ha, hb, rfl⟩ := Operator.result?_logic ho hty
    obtain ⟨s, x, rfl⟩ := hl.boolean ha
    obtain ⟨t, y, rfl⟩ := hr.boolean hb
    exact ofLiteral (.boolean (f x y))
  have hnumbers : operator = .minus ∨ operator = .multiply ∨ operator = .divide → a.same b →
      ∀ whole fraction, Answers (Has ty) (·.fault = .divisionByZero)
        (Value.arithmetic left right position whole fraction) := by
    intro ho hsame whole fraction
    refine hl.arithmetic hr ?_ position whole fraction
    rw [Ty.same_iff] at hsame
    rcases Operator.result?_arithmetic ho hty with hintegers | ⟨ha | hb, rfl⟩
    · exact .inl hintegers
    · exact .inr ⟨ha, hsame ▸ ha, rfl⟩
    · exact .inr ⟨hsame.trans hb, hb, rfl⟩
  cases operator with
  | and => exact hlogic (.inl rfl) (· && ·)
  | or => exact hlogic (.inr rfl) (· || ·)
  | equals =>
    obtain rfl := Operator.result?_comparison rfl hty
    exact ofLiteral (.boolean _)
  | notEquals =>
    obtain rfl := Operator.result?_comparison rfl hty
    exact ofLiteral (.boolean _)
  | less | lessEquals | greater | greaterEquals =>
    obtain rfl := Operator.result?_comparison rfl hty
    exact hl.ordered hr hoperands.1 hoperands.2 position _
  | minus => exact hnumbers (.inl rfl) hoperands _ _
  | multiply => exact hnumbers (.inr (.inl rfl)) hoperands _ _
  | divide =>
    rw [Value.apply]
    split
    · rfl
    · exact hnumbers (.inr (.inr rfl)) hoperands _ _
  | plus => exact plus hty hl hr position

end Value.Has

/-! ## The discipline -/

namespace Discipline

/-- Values have the types that checking found, and only division by zero is tolerated. -/
def strict (host : Host) : Discipline where
  toRestriction := .strict
  known := Ty.Memberless
  host := host
  conforms := Value.Has
  tolerates d := d.fault = .divisionByZero

/-- Under the strict discipline whatever is asked of values is kept, and only division by zero is
tolerated. -/
theorem strict_lawful (host : Host) : (strict host).Lawful where
  closed := closed_of_memberless Ty.memberless_of_mem_builtins id id
  literal := Value.Has.ofLiteral
  accepts haccepts h := ⟨Ty.isAssignable_trans haccepts.2 h.assignable, h.represented⟩
  unset hunset _ := hunset.elim
  ends {ty} hends _ := by
    refine ⟨Ty.isAssignable_iff.mpr ?_, Value.represented_ofLiteral .nil⟩
    exact hends.imp Ty.same_iff.mp fun hany => .inl (Ty.same_iff.mp hany)
  returned hreturned _ h := ⟨Ty.isAssignable_trans hreturned h.assignable, h.represented⟩
  apply hoperands hty hl hr position := Value.Has.apply hoperands hty hl hr position
  truth {value} h position := by
    obtain ⟨ty, b, rfl⟩ := h.boolean rfl
    trivial
  elements {value} h position := by
    obtain ⟨ty, items, rfl, hitems⟩ := h.items rfl
    intro item hitem
    obtain ⟨n, hname⟩ := hitems item hitem
    exact ⟨Ty.isAssignable_iff.mpr (.inl hname.symm), .atom hname⟩
  field hknown hv := by
    rw [hknown.field?_eq_none] at hv
    cases hv
  withField hknown hv := by
    rw [hknown.field?_eq_none] at hv
    cases hv
  method hknown hf := by
    rw [hknown.method?_eq_none] at hf
    cases hf

end Discipline

namespace Program

variable {types : List (String × Ty)} {values : List (String × Value)} {printer : Printer}
  {c : Checker} {m : Machine} {p : Program} {host : Host}

/-- A strict program that is accepted comes to a whole number, or it divides by zero, if the values
that the host supplies have the types that the checker was told. -/
theorem strict_comes_to_integer (hc : Checker.ofHost .builtin types [] = .ok c)
    (hm : Machine.ofHost printer values [] = .ok m)
    (htypes : ∀ v ∈ types, v.2 ∈ Registry.builtin.types)
    (hnames : ∀ n, n ∈ types.map Prod.fst ↔ n ∈ values.map Prod.fst)
    (hvalues : ∀ n ty value, (n, ty) ∈ types → (n, value) ∈ values → value.Has ty)
    (hp : (p.check c).2.verdict = .ok ()) (hstrict : (p.check c).2.tree.Obeys .strict)
    (fuel : Nat) :
    (Run.program host fuel (p.check c).2.tree).Ensures m (fun result _ => result.IsInteger)
      (fun d _ => d.fault = .divisionByZero) := by
  have hsupplies : (Discipline.strict host).Supplies types [] values [] :=
    ⟨hnames, fun key => Iff.rfl, fun v hv => Ty.memberless_of_mem_builtins (htypes v hv),
      fun f hf => absurd hf List.not_mem_nil, fun {n ty value} => hvalues n ty value,
      fun {f answer} hf => absurd hf List.not_mem_nil⟩
  refine (hsupplies.program_ensures (Discipline.strict_lawful host)
    (fun ty hty => Ty.memberless_of_mem_builtins hty) hc hm hp hstrict fuel).mono
    (fun result last hresult => ?_) fun _ _ h => h
  have hname := Value.Has.name_eq hresult rfl (by decide) (by decide)
  obtain ⟨ty, n, rfl⟩ := Value.Has.integer hresult rfl
  exact .intro n hname

/-- A program that halves a number that the host supplies, whichever sign it has. -/
def halving : Program where
  fields := [⟨"start", "Integer", some (.name "x" none default), none, default⟩]
  methods := [
    ⟨"half", [("n", "Integer")], some "Integer", [
      .conditional (.binary .less (.name "n" none default) (.literal (.integer 0) none default)
          none default)
        [.returns (.binary .divide (.name "n" none default) (.literal (.integer (-2)) none default)
          none default) default]
        [.returns (.binary .divide (.name "n" none default) (.literal (.integer 2) none default)
          none default) default]
        default], none, default⟩,
    ⟨entryName, [], some "Integer",
      [.returns (.call "half" [.name "start" none default] none default) default], none, default⟩]
  span := default

theorem halving_comes_to_integer :
    ∃ c m, Checker.ofHost .builtin [("x", .integer)] [] = .ok c ∧
      Machine.ofHost .empty [("x", .integer 7)] [] = .ok m ∧
      (halving.check c).2.verdict = .ok () ∧ (halving.check c).2.tree.Obeys .strict ∧
      (Run.program (fun _ value _ => .ok value) 3 (halving.check c).2.tree).Ensures m
        (fun result _ => result.IsInteger) (fun d _ => d.fault = .divisionByZero) := by
  have hoperands : ∀ {operator : Operator} {a b : Ty}, Restriction.strict.operands operator a b →
      ∀ s t, some a = some s → some b = some t → Restriction.strict.operands operator s t := by
    rintro operator a b h s t ⟨⟩ ⟨⟩
    exact h
  have hreturned : ∀ ty, some Ty.integer = some ty → Restriction.strict.returned .integer ty := by
    rintro ty ⟨⟩
    exact Ty.isAssignable_self _
  have hfields : ∀ f ∈ (halving.check ((Checker.ofHost .builtin [("x", .integer)] []).toOption.getD
      default)).2.tree.fields, Restriction.strict.ObeyedBy f.value := by
    rintro f (_ | ⟨_, ⟨⟩⟩)
    trivial
  have hmethods : ∀ m ∈ (halving.check ((Checker.ofHost .builtin [("x", .integer)] []).toOption.getD
      default)).2.tree.methods, m.Obeys .strict := by
    rintro m (_ | ⟨_, _ | ⟨_, ⟨⟩⟩⟩) f hf
    · obtain rfl := Option.some.inj hf
      exact ⟨⟨⟨⟨trivial, trivial, hoperands ⟨rfl, .integer, by simp [Ty.ordered], rfl⟩⟩,
        ⟨⟨⟨trivial, trivial, hoperands rfl⟩, hreturned⟩, trivial⟩,
        ⟨⟨⟨trivial, trivial, hoperands rfl⟩, hreturned⟩, trivial⟩⟩, trivial⟩, .inl rfl⟩
    · obtain rfl := Option.some.inj hf
      exact ⟨⟨⟨⟨trivial, trivial⟩, hreturned⟩, trivial⟩, .inl rfl⟩
  refine ⟨_, _, rfl, rfl, rfl, ⟨hfields, hmethods⟩, ?_⟩
  refine strict_comes_to_integer
    (show Checker.ofHost .builtin [("x", .integer)] [] = .ok _ from rfl)
    (show Machine.ofHost .empty [("x", .integer 7)] [] = .ok _ from rfl)
    (by simp [Registry.builtin, Ty.builtins]) (fun n => Iff.rfl)
    (fun n ty value hty hvalue => ?_) rfl ⟨hfields, hmethods⟩ 3
  obtain ⟨-, rfl⟩ := Prod.mk.inj (List.mem_singleton.mp hty)
  obtain ⟨-, rfl⟩ := Prod.mk.inj (List.mem_singleton.mp hvalue)
  exact Value.Has.ofLiteral (.integer 7)

end Program

end TeachLang
