import TeachLang.Proofs.ConformingRuns

/-!
# Values have the members of their types

What resolution leaves open is whether values have the members of their types. A value **has the
members** of a type if it has every field of the type, with a value that has the members of the
field's type, and a method for every method of the type. Whatever else it is does not matter: a
built-in type asks for no members, and every value has those.

Under the discipline of **membership** a run of an accepted program fails for what values are only.
No variable without a first value gets in the way, for its type was named, and a program can name
the built-in types alone.
-/

namespace TeachLang

theorem Signature.Alike.trans {f g h : Signature} (hfg : f.Alike g) (hgh : g.Alike h) : f.Alike h :=
  ⟨hfg.1.trans hgh.1, hfg.2.trans hgh.2⟩

namespace World

/-- A value has the members of a type. -/
inductive HasMembers (W : World) : Ty → Value → Prop where
  /-- there is a value for each field, with the members of the field's type, and a handle for each
  method, which stands for it -/
  | intro {ty : Ty} {value : Value} :
    (∀ n v, ty.field? n = some v → ∃ part, value.field? n = some part) →
    (∀ n v part, ty.field? n = some v → value.field? n = some part → W.HasMembers v.ty part) →
    (∀ n k f, ty.method? n k = some f → ∃ g handle, value.handle? n k = some handle ∧
      f.Alike g ∧ W.offers g handle) →
    W.HasMembers ty value

/-- Methods of values that have the members of a type answer with what has the members of the
result, or fail for what values are. -/
def Answering (W : World) (host : Host) : Prop :=
  ∀ owner n f g handle receiver arguments, W.known owner →
    owner.method? n arguments.length = some f → f.Alike g → W.offers g handle →
    receiver.handle? n arguments.length = some handle → W.HasMembers owner receiver →
    List.Forall₂ W.HasMembers f.parameters arguments →
    Answers (W.HasMembers f.result) (fun d => d.fault.phase = .running)
      (host handle receiver arguments)

variable {W : World} {a b owner target source : Ty} {value : Value}

/-! ## Types -/

/-- Every value has the members of a type without members. -/
theorem hasMembers_of_memberless (h : a.Memberless) (value : Value) : W.HasMembers a value := by
  refine .intro (fun n v hv => ?_) (fun n v part hv => ?_) fun n k f hf => ?_
  · rw [h.field?_eq_none] at hv
    cases hv
  · rw [h.field?_eq_none] at hv
    cases hv
  · rw [h.method?_eq_none] at hf
    cases hf

/-- Types of one name have the same members. -/
theorem Coherent.hasMembers_of_name_eq (hW : W.Coherent) (ha : W.known a) (hb : W.known b)
    (hname : a.name = b.name) (h : W.HasMembers a value) : W.HasMembers b value := by
  induction h generalizing b with
  | @intro a value hfields _ hmethods ih =>
    refine .intro (fun n v hv => ?_) (fun n v part hv hpart => ?_) fun n k f hf => ?_
    · obtain ⟨w, hw, -⟩ := hW.fields hb ha hname.symm hv
      exact hfields n w hw
    · obtain ⟨w, hw, hvw⟩ := hW.fields hb ha hname.symm hv
      exact ih n w part hw hpart (hW.field ha hw) (hW.field hb hv) hvw.symm
    · obtain ⟨f', hf', halike⟩ := hW.methods hb ha hname.symm hf
      obtain ⟨g, handle, hhandle, hg, hoffers⟩ := hmethods n k f' hf'
      exact ⟨g, handle, hhandle, halike.trans hg, hoffers⟩

theorem Coherent.hasMembers_of_builtin (hW : W.Coherent) (ha : W.known a) (hb : b ∈ Ty.builtins)
    (hname : a.name = b.name) (value : Value) : W.HasMembers a value :=
  hW.hasMembers_of_name_eq (hW.builtin hb) ha hname.symm
    (hasMembers_of_memberless (Ty.memberless_of_mem_builtins hb) value)

/-- A type that takes values of another asks for no members that these do not have. -/
theorem Coherent.hasMembers_of_isAssignable (hW : W.Coherent) (ht : W.known target)
    (hs : W.known source) (hassignable : target.isAssignable source)
    (h : W.HasMembers source value) : W.HasMembers target value := by
  rcases Ty.isAssignable_iff.mp hassignable with hname | hany | ⟨hcomparable, -⟩
  · exact hW.hasMembers_of_name_eq hs ht hname.symm h
  · exact hW.hasMembers_of_builtin ht (b := .any) (by simp [Ty.builtins]) hany value
  · exact hW.hasMembers_of_builtin ht (b := .comparable) (by simp [Ty.builtins]) hcomparable value

/-! ## Members -/

theorem HasMembers.field (h : W.HasMembers owner value) {n : String} {v : Variable}
    (hv : owner.field? n = some v) :
    ∃ part, value.field? n = some part ∧ W.HasMembers v.ty part := by
  cases h with
  | intro hfields hparts _ =>
    obtain ⟨part, hpart⟩ := hfields n v hv
    exact ⟨part, hpart, hparts n v part hv hpart⟩

theorem HasMembers.method (h : W.HasMembers owner value) {n : String} {k : Nat} {f : Signature}
    (hf : owner.method? n k = some f) :
    ∃ g handle, value.handle? n k = some handle ∧ f.Alike g ∧ W.offers g handle := by
  cases h with
  | intro _ _ hmethods => exact hmethods n k f hf

/-- A field may be given every value that has the members of its type. -/
theorem HasMembers.withField (h : W.HasMembers owner value) {n : String} {v : Variable}
    {new : Value} (hv : owner.field? n = some v) (hnew : W.HasMembers v.ty new) :
    W.HasMembers owner (value.withField n new) := by
  obtain ⟨part, hpart, -⟩ := h.field hv
  cases value with
  | record s fields methods =>
    have hlookup : ∀ n', (Value.record s (fields.set n new) methods).field? n' =
        if n' = n then some new else fields.lookup n' :=
      fields.lookup_set (Option.isSome_iff_exists.mpr ⟨part, hpart⟩) new
    refine .intro (fun n' w hw => ?_) (fun n' w part' hw hpart' => ?_) fun n' k f hf => h.method hf
    · rw [Value.withField, hlookup]
      split
      · exact ⟨new, rfl⟩
      · obtain ⟨part', hpart', -⟩ := h.field hw
        exact ⟨part', hpart'⟩
    · rw [Value.withField, hlookup] at hpart'
      split at hpart'
      · next heq =>
        obtain rfl := Option.some.inj hpart'
        obtain rfl := Option.some.inj ((heq ▸ hw).symm.trans hv)
        exact hnew
      · obtain ⟨found, hfound, hmembers⟩ := h.field hw
        obtain rfl := Option.some.inj (hfound.symm.trans hpart')
        exact hmembers
  | _ => cases hpart

end World

/-! ## The discipline -/

namespace Discipline

/-- Values have the members of their types, and may be anything else. Only the built-in types can be
named. -/
def membership (W : World) (host : Host) : Discipline where
  toRestriction := .free
  known := W.known
  nameable := (· ∈ Ty.builtins)
  host := host
  conforms ty value := W.known ty ∧ W.HasMembers ty value
  tolerates d := d.fault.phase = .running

theorem membership_lawful {W : World} (hW : W.Coherent) {host : Host} (hhost : W.Answering host) :
    (membership W host).Lawful := by
  have hbuiltin : ∀ {ty}, ty ∈ Ty.builtins → ∀ value, (membership W host).conforms ty value :=
    fun hty value => ⟨hW.builtin hty,
      World.hasMembers_of_memberless (Ty.memberless_of_mem_builtins hty) value⟩
  exact
    { closed := ⟨id, hW.builtin, hW.field, hW.method⟩
      literal := fun value => hbuiltin value.ty_mem_builtins _
      accepts := fun haccepts h =>
        ⟨haccepts.1, hW.hasMembers_of_isAssignable haccepts.1 h.1 haccepts.2 h.2⟩
      unset := fun _ hty => hbuiltin hty _
      ends := fun _ hty => hbuiltin hty _
      returned := fun _ hresult _ => hbuiltin hresult _
      apply := fun _ hty _ _ position =>
        (Value.apply_failsOnly _ _ _ position).mono
          (fun value _ => hbuiltin (Operator.result?_mem_builtins hty) value) fun _ h => h
      truth := fun _ position => Value.truth_failsOnly _ position
      elements := fun {value} _ position => by
        cases value with
        | iterable ty items => exact fun item _ => hbuiltin (by simp [Ty.builtins]) item
        | _ => rfl
      field := fun {owner n v value} hknown hv h position => by
        obtain ⟨part, hpart, hmembers⟩ := h.2.field hv
        rw [Value.field, hpart]
        exact ⟨hW.field hknown hv, hmembers⟩
      withField := fun hknown hv h _ hnew => ⟨hknown, h.2.withField hv hnew.2⟩
      method := fun {owner n f value arguments} hknown hf h harguments position => by
        obtain ⟨g, handle, hhandle, halike, hoffers⟩ := h.2.method hf
        rw [Value.callMethod, hhandle]
        exact (hhost owner n f g handle value arguments hknown hf halike hoffers hhandle h.2
          (harguments.imp fun _ _ h => h.2)).mono
          (fun _ hresult => ⟨(hW.method hknown hf).2, hresult⟩) fun _ h => h }

end Discipline

namespace Program

variable {types : List (String × Ty)} {values : List (String × Value)} {printer : Printer}
  {c : Checker} {m last : Machine} {p : Program} {host : Host} {fuel : Nat} {d : Diagnostic}

/-- Where a checker of the built-in types and a machine were given the same variables, whatever
their values, a program that is accepted only fails for what values are, or at a member of a type of
these variables. Every name that it uses is defined, and none twice, and all that it assigns to can
be assigned to. If the types of the variables have no members, or if their values have the members
of their types and types of one name have the same members, it only fails for what values are. -/
theorem fails_only_for_values (hc : Checker.ofHost .builtin types [] = .ok c)
    (hm : Machine.ofHost printer values [] = .ok m)
    (hnames : ∀ n, n ∈ types.map Prod.fst ↔ n ∈ values.map Prod.fst)
    (hp : (p.check c).2.verdict = .ok ())
    (hrun : Run.program host fuel (p.check c).2.tree m = .failed d last) :
    (d.fault.OfValue ∨ d.FromMember types host) ∧
    ((∀ v ∈ types, v.2.Memberless) → d.fault.OfValue) ∧
    ∀ W : World, W.Coherent → W.Answering host → (∀ v ∈ types, W.known v.2) →
      (∀ n ty value, (n, ty) ∈ types → (n, value) ∈ values → W.HasMembers ty value) →
      d.fault.OfValue := by
  have hopen : d.fault.OfValue ∨ d.FromMember types host := by
    have hsupplies : (Discipline.resolution types host).Supplies types [] values [] :=
      ⟨hnames, fun key => Iff.rfl, fun _ hv => .given hv, fun f hf => absurd hf List.not_mem_nil,
        fun _ _ => trivial, fun hf => absurd hf List.not_mem_nil⟩
    have hensures := hsupplies.program_ensures (Discipline.resolution_lawful types host)
      (fun ty hty => .builtin hty) hc hm hp (obeys_free _) fuel
    exact (hensures.of_failed hrun).imp_left Fault.ofValue_of_phase
  refine ⟨hopen, fun htypes => hopen.resolve_right (Diagnostic.not_fromMember htypes), ?_⟩
  intro W hW hhost hknown hvalues
  have hsupplies : (Discipline.membership W host).Supplies types [] values [] :=
    ⟨hnames, fun key => Iff.rfl, hknown, fun f hf => absurd hf List.not_mem_nil,
      fun {n ty value} hty hvalue => ⟨hknown (n, ty) hty, hvalues n ty value hty hvalue⟩,
      fun hf => absurd hf List.not_mem_nil⟩
  have hensures := hsupplies.program_ensures (Discipline.membership_lawful hW hhost)
    (fun ty hty => hty) hc hm hp (obeys_free _) fuel
  exact Fault.ofValue_of_phase (hensures.of_failed hrun)

/-- A program that reads a field of a variable that the host supplies. -/
def reading : Program where
  fields := []
  methods := [⟨entryName, [], some "Integer",
    [.returns (.member (.name "pair" none default) "first" none default) default], none, default⟩]
  span := default

/-- A variable of a record type may be given a number, which has no fields: the program is accepted,
and fails for what it read. -/
theorem number_lacks_field :
    ∃ c m d last, Checker.ofHost .builtin [("pair", pairTy)] [] = .ok c ∧
      Machine.ofHost .empty [("pair", .integer 3)] [] = .ok m ∧
      (∀ n, n ∈ [("pair", pairTy)].map Prod.fst ↔ n ∈ [("pair", Value.integer 3)].map Prod.fst) ∧
      (reading.check c).2.verdict = .ok () ∧
      Run.program (fun _ value _ => .ok value) 1 (reading.check c).2.tree m = .failed d last ∧
      d.fault = .undefinedName "Integer.first" ∧ ¬ d.fault.OfValue := by
  refine ⟨_, _, _, _, rfl, rfl, fun n => Iff.rfl, rfl, rfl, rfl, ?_⟩
  rintro (hzero | ⟨received, hiterable⟩ | ⟨expected, received, hmismatch⟩)
  · cases hzero
  · cases hiterable
  · cases hmismatch

/-- A program that divides a field of a variable that the host supplies by zero. -/
def quotient : Program where
  fields := []
  methods := [⟨entryName, [], some "Integer",
    [.returns (.binary .divide (.member (.name "pair" none default) "first" none default)
      (.literal (.integer 0) none default) none default) default], none, default⟩]
  span := default

theorem onePair_hasMembers : pairWorld.HasMembers pairTy onePair := by
  refine .intro (fun n v hv => ?_) (fun n v part hv _ => ?_) fun n k f hf => nomatch hf
  · obtain ⟨k, hk, -⟩ := onePair_field? hv
    exact ⟨_, hk⟩
  · obtain ⟨k, -, hty⟩ := onePair_field? hv
    rw [hty]
    exact World.hasMembers_of_memberless ⟨rfl, rfl⟩ part

theorem quotient_fails_only_for_values :
    ∃ c m d last, Checker.ofHost .builtin [("pair", pairTy)] [] = .ok c ∧
      Machine.ofHost .empty [("pair", onePair)] [] = .ok m ∧
      (quotient.check c).2.verdict = .ok () ∧
      Run.program (fun _ value _ => .ok value) 1 (quotient.check c).2.tree m = .failed d last ∧
      d.fault.OfValue := by
  refine ⟨_, _, _, _, rfl, rfl, rfl, rfl, ?_⟩
  have hfails := fails_only_for_values
    (show Checker.ofHost .builtin [("pair", pairTy)] [] = .ok _ from rfl)
    (show Machine.ofHost .empty [("pair", onePair)] [] = .ok _ from rfl) (fun n => Iff.rfl)
    (show (quotient.check _).2.verdict = .ok () from rfl)
    (show Run.program (fun _ value _ => .ok value) 1 _ _ = _ from rfl)
  refine hfails.2.2 pairWorld pairWorld_coherent ?_ ?_ ?_
  · exact fun owner n f g handle receiver arguments _ _ _ hoffers => hoffers.elim
  · intro v hv
    obtain rfl := List.mem_singleton.mp hv
    exact List.mem_cons_self ..
  · intro n ty value hty hvalue
    obtain ⟨-, rfl⟩ := Prod.mk.inj (List.mem_singleton.mp hty)
    obtain ⟨-, rfl⟩ := Prod.mk.inj (List.mem_singleton.mp hvalue)
    exact onePair_hasMembers

end Program

end TeachLang
