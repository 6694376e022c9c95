import TeachLang.Proofs.Hosts

/-!
# Names resolve

The discipline of **resolution** asks nothing of values: a variable may hold anything. Under it a
run of an accepted program fails for what values are, or at a member that a type has and a value of
that type has not (`Diagnostic.FromMember`). It never fails for what names mean, nor for what is
assigned to. Built-in types have no members, and only a host can give a variable a type that has
some.
-/

namespace TeachLang

/-! ## No restriction -/

/-- Nothing is asked of a program. -/
def Restriction.free : Restriction := ⟨fun _ _ _ => True, True, fun _ _ => True, fun _ => True⟩

namespace Expr

mutual

/-- Without restrictions every expression is as it should be. -/
theorem obeys_free : ∀ e : Expr, e.Obeys .free
  | literal .. | name .. => trivial
  | group inner _ _ => obeys_free inner
  | binary _ left right _ _ => ⟨obeys_free left, obeys_free right, fun _ _ _ _ => trivial⟩
  | member receiver _ _ _ => obeys_free receiver
  | call _ arguments _ _ => allObey_free arguments
  | methodCall receiver _ arguments _ _ => ⟨obeys_free receiver, allObey_free arguments⟩

theorem allObey_free : ∀ es : List Expr, AllObey .free es
  | [] => trivial
  | e :: es => ⟨obeys_free e, allObey_free es⟩

end

end Expr

theorem Restriction.obeyedBy_free : ∀ value : Option Expr, Restriction.free.ObeyedBy value
  | none => trivial
  | some e => e.obeys_free

namespace Stmt

mutual

/-- And so is every statement. -/
theorem obeys_free (result : Ty) : ∀ stmt : Stmt, stmt.Obeys .free result
  | expression e _ => e.obeys_free
  | declaration _ _ value _ _ => Restriction.obeyedBy_free value
  | assignment target value _ => ⟨target.obeys_free, value.obeys_free⟩
  | conditional condition thenBody elseBody _ =>
    ⟨condition.obeys_free, allObey_free result thenBody, allObey_free result elseBody⟩
  | forEach _ items body _ => ⟨items.obeys_free, allObey_free result body⟩
  | whileLoop condition body _ => ⟨condition.obeys_free, allObey_free result body⟩
  | returns value _ => ⟨value.obeys_free, fun _ _ => trivial⟩

theorem allObey_free (result : Ty) : ∀ stmts : List Stmt, AllObey .free result stmts
  | [] => trivial
  | stmt :: stmts => ⟨obeys_free result stmt, allObey_free result stmts⟩

end

end Stmt

theorem Method.obeys_free (m : Method) : m.Obeys .free :=
  fun f _ => ⟨Stmt.allObey_free f.result m.body, .inr trivial⟩

/-- Every program keeps to no restriction. -/
theorem Program.obeys_free (p : Program) : p.Obeys .free :=
  ⟨fun f _ => Restriction.obeyedBy_free f.value, fun m _ => m.obeys_free⟩

/-! ## Types without members -/

/-- The values of the type have no members. -/
def Ty.Memberless (ty : Ty) : Prop := ty.fields = [] ∧ ty.methods = []

/-- Built-in types have no members. -/
theorem Ty.memberless_of_mem_builtins {ty : Ty} (h : ty ∈ builtins) : ty.Memberless := by
  simp only [builtins, List.mem_cons, List.not_mem_nil, or_false] at h
  rcases h with rfl | rfl | rfl | rfl | rfl | rfl | rfl | rfl | rfl <;> exact ⟨rfl, rfl⟩

theorem Ty.Memberless.field?_eq_none {ty : Ty} (h : ty.Memberless) (n : String) :
    ty.field? n = none := by
  rw [Ty.field?, h.1]
  rfl

theorem Ty.Memberless.method?_eq_none {ty : Ty} (h : ty.Memberless) (n : String) (arity : Nat) :
    ty.method? n arity = none := by
  rw [Ty.method?, h.2]
  rfl

/-- No member of a type without members has to be known. -/
theorem closed_of_memberless {R : Regime} (hbuiltin : ∀ {ty}, ty ∈ Ty.builtins → R.nameable ty)
    (hnamed : ∀ {ty}, R.nameable ty → R.known ty) (hknown : ∀ {ty}, R.known ty → ty.Memberless) :
    R.Closed := by
  refine ⟨hbuiltin, hnamed, fun {ty n v} hty hv => ?_, fun {ty n k f} hty hf => ?_⟩
  · rw [(hknown hty).field?_eq_none] at hv
    cases hv
  · rw [(hknown hty).method?_eq_none] at hf
    cases hf

/-! ## What operators may fail for -/

namespace Value

/-- The faults of what values are. -/
abbrev FailsOnly {α : Type} (result : Except Diagnostic α) : Prop :=
  Answers (fun _ => True) (fun d => d.fault.phase = .running) result

/-- Whether a value is a truth is a matter of the value. -/
theorem truth_failsOnly (value : Value) (position : Position) :
    FailsOnly (value.truth position) := by
  unfold truth
  split
  · trivial
  · rfl

/-- So is it whether two values can be compared. -/
theorem ordered_failsOnly (left right : Value) (position : Position) (holds : Ordering → Bool) :
    FailsOnly (ordered left right position holds) := by
  unfold ordered
  split
  · trivial
  · rfl

/-- And whether they are numbers of one kind. -/
theorem arithmetic_failsOnly (left right : Value) (position : Position) (whole : Int → Int → Int)
    (fraction : Decimal → Decimal → Decimal) :
    FailsOnly (arithmetic left right position whole fraction) := by
  unfold arithmetic
  split
  · trivial
  · trivial
  · rfl

/-- An operator fails only for what its operands are. -/
theorem apply_failsOnly (operator : Operator) (left right : Value) (position : Position) :
    FailsOnly (apply operator left right position) := by
  have hboth : ∀ f : Bool → Bool → Bool, FailsOnly (do
      let a ← left.truth position
      let b ← right.truth position
      return boolean (f a b)) := by
    intro f
    have hleft := left.truth_failsOnly position
    have hright := right.truth_failsOnly position
    cases ha : left.truth position with
    | error d =>
      rw [ha] at hleft
      exact hleft
    | ok a =>
      cases hb : right.truth position with
      | error d =>
        rw [hb] at hright
        exact hright
      | ok b => trivial
  cases operator with
  | and => exact hboth (· && ·)
  | or => exact hboth (· || ·)
  | equals | notEquals => trivial
  | less | lessEquals | greater | greaterEquals => exact ordered_failsOnly ..
  | minus | multiply => exact arithmetic_failsOnly ..
  | plus =>
    rw [apply]
    split
    · trivial
    · exact arithmetic_failsOnly ..
  | divide =>
    rw [apply]
    split
    · rfl
    · exact arithmetic_failsOnly ..

end Value

/-- The faults of what values are. -/
def Fault.OfValue (fault : Fault) : Prop :=
  fault = .divisionByZero ∨ (∃ received, fault = .notIterable received) ∨
    ∃ expected received, fault = .runtimeTypeMismatch expected received

/-- What is at fault while running is a value. -/
theorem Fault.ofValue_of_phase {fault : Fault} (h : fault.phase = .running) : fault.OfValue := by
  cases fault with
  | divisionByZero => exact .inl rfl
  | notIterable received => exact .inr (.inl ⟨received, rfl⟩)
  | runtimeTypeMismatch expected received => exact .inr (.inr ⟨expected, received, rfl⟩)
  | _ => cases h

/-! ## What members may fail for -/

/-- The types that a program comes across if a host gives it variables of some types: these, the
built-in ones, and those of members of all of them. -/
inductive Ty.Met (types : List (String × Ty)) : Ty → Prop where
  /-- a built-in type -/
  | builtin {ty : Ty} : ty ∈ builtins → Ty.Met types ty
  /-- the type of a variable -/
  | given {n : String} {ty : Ty} : (n, ty) ∈ types → Ty.Met types ty
  /-- the type of a field -/
  | field {ty : Ty} {n : String} {v : Variable} :
    Ty.Met types ty → ty.field? n = some v → Ty.Met types v.ty
  /-- the type of a parameter of a method -/
  | parameter {ty parameter : Ty} {n : String} {k : Nat} {f : Signature} :
    Ty.Met types ty → ty.method? n k = some f → parameter ∈ f.parameters → Ty.Met types parameter
  /-- the type of the result of a method -/
  | result {ty : Ty} {n : String} {k : Nat} {f : Signature} :
    Ty.Met types ty → ty.method? n k = some f → Ty.Met types f.result

/-- What goes wrong at a member that a type of the host has. -/
inductive Diagnostic.FromMember (types : List (String × Ty)) (host : Host) : Diagnostic → Prop where
  /-- a value does not have the field -/
  | field {owner : Ty} {n : String} {v : Variable} {value : Value} {position : Position} :
    Ty.Met types owner → owner.field? n = some v → value.field? n = none →
    Diagnostic.FromMember types host (value.missing n position)
  /-- a value does not have the method -/
  | method {owner : Ty} {n : String} {k : Nat} {f : Signature} {value : Value}
      {position : Position} :
    Ty.Met types owner → owner.method? n k = some f → value.handle? n k = none →
    Diagnostic.FromMember types host (value.missing (withArity n k) position)
  /-- the method fails -/
  | answer {owner : Ty} {n : String} {f : Signature} {value : Value} {arguments : List Value}
      {handle : Nat} {d : Diagnostic} :
    Ty.Met types owner → owner.method? n arguments.length = some f →
    value.handle? n arguments.length = some handle → host handle value arguments = .error d →
    Diagnostic.FromMember types host d

/-- If the types of the host have no members, no type that a program comes across has. -/
theorem Ty.Met.memberless {types : List (String × Ty)} (htypes : ∀ v ∈ types, v.2.Memberless)
    {ty : Ty} (h : Ty.Met types ty) : ty.Memberless := by
  induction h with
  | builtin hty => exact memberless_of_mem_builtins hty
  | @given n ty hty => exact htypes (n, ty) hty
  | field _ hv ih =>
    rw [ih.field?_eq_none] at hv
    cases hv
  | parameter _ hf _ ih | result _ hf ih =>
    rw [ih.method?_eq_none] at hf
    cases hf

/-- Where no type has members, nothing comes from one. -/
theorem Diagnostic.not_fromMember {types : List (String × Ty)} {host : Host} {d : Diagnostic}
    (htypes : ∀ v ∈ types, v.2.Memberless) : ¬ d.FromMember types host := by
  rintro (⟨howner, hv, -⟩ | ⟨howner, hf, -⟩ | ⟨howner, hf, -, -⟩)
  · rw [(howner.memberless htypes).field?_eq_none] at hv
    cases hv
  all_goals
    rw [(howner.memberless htypes).method?_eq_none] at hf
    cases hf

/-! ## The discipline -/

namespace Discipline

/-- Values may be anything, and what is read of them may be missing. -/
def resolution (types : List (String × Ty)) (host : Host) : Discipline where
  toRestriction := .free
  known := Ty.Met types
  host := host
  conforms _ _ := True
  tolerates d := d.fault.phase = .running ∨ d.FromMember types host

/-- Nothing is asked of values, so that there is nothing to be kept. -/
theorem resolution_lawful (types : List (String × Ty)) (host : Host) :
    (resolution types host).Lawful where
  closed := ⟨.builtin, id, .field, fun hty hf => ⟨fun _ hp => .parameter hty hf hp, .result hty hf⟩⟩
  literal _ := trivial
  accepts _ _ := trivial
  unset _ _ := trivial
  ends _ _ := trivial
  returned _ _ _ := trivial
  apply _ _ _ _ position :=
    (Value.apply_failsOnly _ _ _ position).mono (fun _ _ => trivial) fun _ h => .inl h
  truth _ position := (Value.truth_failsOnly _ position).mono (fun _ _ => trivial) fun _ h => .inl h
  elements {value} _ position := by
    cases value with
    | iterable ty items => exact fun _ _ => trivial
    | _ => exact .inl rfl
  field {owner n v value} hknown hv _ position := by
    rw [Value.field]
    cases hpart : value.field? n with
    | some part => trivial
    | none => exact .inr (.field hknown hv hpart)
  withField _ _ _ _ _ := trivial
  method {owner n f value arguments} hknown hf _ _ position := by
    rw [Value.callMethod]
    cases hhandle : value.handle? n arguments.length with
    | none => exact .inr (.method hknown hf hhandle)
    | some handle =>
      change Answers _ _ (host handle value arguments)
      cases hanswer : host handle value arguments with
      | ok result => trivial
      | error d => exact .inr (.answer hknown hf hhandle hanswer)

end Discipline

end TeachLang
