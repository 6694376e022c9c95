import TeachLang.Run.Program

/-!
# What runs ensure

`Run.Ensures` says of a run from one machine what holds at its end: one thing if it is done with a
result, another if it fails. A run that is exhausted has not come to an end, so nothing is asked of
it. There is one rule for each way in which runs are put together.
-/

namespace TeachLang

/-- What is done in two steps without a failure is done without one in each of them. -/
theorem ok_of_bind {E S T : Type} {first : Except E S} {next : S → Except E T} {result : T}
    (h : (first >>= next) = .ok result) : ∃ found, first = .ok found ∧ next found = .ok result := by
  cases first with
  | error e => cases h
  | ok found => exact ⟨found, rfl, h⟩

/-- A result is good, or the diagnostic in its place is tolerated. -/
def Answers {α : Type} (good : α → Prop) (tolerated : Diagnostic → Prop) :
    Except Diagnostic α → Prop
  | .ok result => good result
  | .error d => tolerated d

theorem Answers.mono {α : Type} {good good' : α → Prop} {tolerated tolerated' : Diagnostic → Prop}
    {result : Except Diagnostic α} (h : Answers good tolerated result)
    (hgood : ∀ result, good result → good' result)
    (htolerated : ∀ d, tolerated d → tolerated' d) : Answers good' tolerated' result := by
  cases result with
  | ok result => exact hgood _ h
  | error d => exact htolerated _ h

theorem Answers.of_ok {α : Type} {good : α → Prop} {tolerated : Diagnostic → Prop}
    {result : Except Diagnostic α} {found : α} (h : Answers good tolerated result)
    (hresult : result = .ok found) : good found := by
  rwa [hresult] at h

theorem Answers.of_error {α : Type} {good : α → Prop} {tolerated : Diagnostic → Prop}
    {result : Except Diagnostic α} {d : Diagnostic} (h : Answers good tolerated result)
    (hresult : result = .error d) : tolerated d := by
  rwa [hresult] at h

/-- What goes on with a good result is good if it is so from every good one. -/
theorem Answers.bind {α β : Type} {good : α → Prop} {good' : β → Prop}
    {tolerated : Diagnostic → Prop} {first : Except Diagnostic α}
    {next : α → Except Diagnostic β} (h : Answers good tolerated first)
    (hnext : ∀ result, good result → Answers good' tolerated (next result)) :
    Answers good' tolerated (first >>= next) := by
  cases first with
  | ok result => exact hnext result h
  | error d => exact h

namespace Run

variable {α β : Type} {done : α → Machine → Prop} {failed : Diagnostic → Machine → Prop}

/-- The end that a run comes to is as described. -/
def Ensures (r : Run α) (m : Machine) (done : α → Machine → Prop)
    (failed : Diagnostic → Machine → Prop) : Prop :=
  match r m with
  | .done result last => done result last
  | .failed d last => failed d last
  | .exhausted => True

theorem ensures_pure {result : α} {m : Machine} (h : done result m) :
    (Run.pure result).Ensures m done failed :=
  h

theorem ensures_exhausted (m : Machine) : (exhausted : Run α).Ensures m done failed :=
  trivial

theorem ensures_ofExcept {result : Except Diagnostic α} {m : Machine}
    (h : Answers (done · m) (failed · m) result) :
    (ofExcept result).Ensures m done failed := by
  cases result <;> exact h

theorem ensures_look {f : Machine → Except Diagnostic α} {m : Machine}
    (h : Answers (done · m) (failed · m) (f m)) : (look f).Ensures m done failed :=
  ensures_ofExcept h

theorem ensures_change {f : Machine → Except Diagnostic Machine} {m : Machine}
    {done : Unit → Machine → Prop} (h : Answers (done ()) (failed · m) (f m)) :
    (change f).Ensures m done failed := by
  unfold Ensures change
  cases hf : f m <;> rw [hf] at h <;> exact h

/-- What is ensured may be weakened. -/
theorem Ensures.mono {r : Run α} {m : Machine} {done' : α → Machine → Prop}
    {failed' : Diagnostic → Machine → Prop} (h : r.Ensures m done failed)
    (hdone : ∀ result last, done result last → done' result last)
    (hfailed : ∀ d last, failed d last → failed' d last) : r.Ensures m done' failed' := by
  unfold Ensures at h ⊢
  cases hr : r m <;> rw [hr] at h
  · exact hdone _ _ h
  · exact hfailed _ _ h
  · trivial

/-- A run that goes on with the result of another ensures what it ensures from wherever the other
ends. -/
theorem Ensures.bind {first : Run α} {next : α → Run β} {m : Machine} {done' : β → Machine → Prop}
    (h : first.Ensures m (fun result mid => (next result).Ensures mid done' failed) failed) :
    (first >>= next).Ensures m done' failed := by
  change (Run.bind first next).Ensures m done' failed
  unfold Ensures Run.bind at *
  cases hr : first m <;> rw [hr] at h <;> exact h

/-- What is ensured in two ways is ensured at once. -/
theorem Ensures.and {r : Run α} {m : Machine} {done' : α → Machine → Prop}
    {failed' : Diagnostic → Machine → Prop} (h : r.Ensures m done failed)
    (h' : r.Ensures m done' failed') :
    r.Ensures m (fun result last => done result last ∧ done' result last)
      (fun d last => failed d last ∧ failed' d last) := by
  unfold Ensures at *
  cases hr : r m <;> rw [hr] at h h'
  · exact ⟨h, h'⟩
  · exact ⟨h, h'⟩
  · trivial

theorem Ensures.of_failed {r : Run α} {m last : Machine} {d : Diagnostic}
    (h : r.Ensures m done failed) (hr : r m = .failed d last) : failed d last := by
  unfold Ensures at h
  rwa [hr] at h

theorem Ensures.of_done {r : Run α} {m last : Machine} {result : α} (h : r.Ensures m done failed)
    (hr : r m = .done result last) : done result last := by
  unfold Ensures at h
  rwa [hr] at h

/-- What goes on with the result of a run is done if both are. -/
theorem done_of_bind {first : Run α} {next : α → Run β} {m last : Machine} {result : β}
    (h : (first >>= next) m = .done result last) :
    ∃ found mid, first m = .done found mid ∧ next found mid = .done result last := by
  change Run.bind first next m = _ at h
  unfold Run.bind at h
  cases hfirst : first m with
  | done found mid =>
    rw [hfirst] at h
    exact ⟨found, mid, rfl, h⟩
  | _ =>
    rw [hfirst] at h
    cases h

theorem eq_of_look {f : Machine → Except Diagnostic α} {m m' : Machine} {result : α}
    (h : look f m = .done result m') : f m = .ok result ∧ m' = m := by
  unfold look ofExcept at h
  cases hf : f m with
  | ok found =>
    rw [hf] at h
    obtain ⟨rfl, rfl⟩ := Outcome.done.inj h
    exact ⟨rfl, rfl⟩
  | error d =>
    rw [hf] at h
    cases h

theorem eq_of_change {f : Machine → Except Diagnostic Machine} {m m' : Machine} {u : Unit}
    (h : change f m = .done u m') : f m = .ok m' := by
  unfold change at h
  cases hf : f m with
  | ok changed =>
    rw [hf] at h
    exact congrArg _ (Outcome.done.inj h).2
  | error d =>
    rw [hf] at h
    cases h

/-- A run in a scope of its own starts behind the entrance and is followed by leaving. -/
theorem ensures_inScope {parent : Nat} {inner : Run α} {m : Machine}
    (h : inner.Ensures (m.enter parent)
      (fun result last => done result (last.leave m.scopes.fresh m.scope))
      (fun d last => failed d (last.leave m.scopes.fresh m.scope))) :
    (inScope parent inner).Ensures m done failed := by
  unfold Ensures at h ⊢
  simp only [inScope]
  cases hr : inner (m.enter parent) <;> rw [hr] at h <;> exact h

theorem ensures_inBlock {inner : Run α} {m : Machine}
    (h : (inScope m.scope inner).Ensures m done failed) : (inBlock inner).Ensures m done failed :=
  h

/-! ## Statements and loops -/

variable {ended : Flow → Machine → Prop}

theorem ensures_unlessReturned {first next : Run Flow} {m : Machine}
    (h : first.Ensures m
      (fun flow mid => match flow with
        | .next => next.Ensures mid ended failed
        | .returned value => ended (.returned value) mid) failed) :
    (first.unlessReturned next).Ensures m ended failed := by
  unfold Ensures at h ⊢
  unfold unlessReturned
  cases hr : first m with
  | done flow mid => rw [hr] at h; cases flow <;> exact h
  | failed d mid => rw [hr] at h; exact h
  | exhausted => trivial

/-- What holds whenever a condition is about to be evaluated holds as long as the loop runs. -/
theorem ensures_rounds {condition : Run Bool} {round : Run Flow} (invariant : Machine → Prop)
    (hcondition : ∀ m, invariant m →
      condition.Ensures m (fun b mid => invariant mid ∧ (b = false → ended .next mid)) failed)
    (hround : ∀ m, invariant m →
      round.Ensures m
        (fun flow mid => match flow with
          | .next => invariant mid
          | .returned value => ended (.returned value) mid) failed) :
    ∀ fuel m, invariant m → (rounds condition round fuel).Ensures m ended failed := by
  intro fuel
  induction fuel with
  | zero => intro m _; exact ensures_exhausted m
  | succ n ih =>
    intro m hm
    have hc := hcondition m hm
    unfold Ensures at hc ⊢
    cases hr : condition m with
    | done b mid =>
      rw [hr] at hc
      obtain ⟨hmid, hended⟩ := hc
      cases b with
      | false =>
        simp only [rounds, hr]
        exact hended rfl
      | true =>
        simp only [rounds, hr]
        refine ensures_unlessReturned ((hround mid hmid).mono ?_ fun _ _ h => h)
        rintro (_ | value) last h
        · exact ih last h
        · exact h
    | failed d mid =>
      simp only [rounds, hr]
      rw [hr] at hc
      exact hc
    | exhausted => simp only [rounds, hr]

/-- What holds before every item holds as long as the loop runs. -/
theorem ensures_forItems {round : Value → Run Flow} {invariant : Machine → Prop}
    (hended : ∀ m, invariant m → ended .next m) :
    ∀ {items : List Value},
      (∀ item ∈ items, ∀ m, invariant m → (round item).Ensures m
        (fun flow mid => match flow with
          | .next => invariant mid
          | .returned value => ended (.returned value) mid) failed) →
      ∀ m, invariant m → (forItems round items).Ensures m ended failed := by
  intro items
  induction items with
  | nil => intro _ m hm; exact ensures_pure (hended m hm)
  | cons item items ih =>
    intro hround m hm
    refine ensures_unlessReturned
      ((hround item (List.mem_cons_self ..) m hm).mono ?_ fun _ _ h => h)
    rintro (_ | value) last h
    · exact ih (fun i hi => hround i (List.mem_cons_of_mem _ hi)) last h
    · exact h

end Run

/-- There is a value for each argument. -/
theorem Expr.length_of_evaluateAll {host : Host} {caller : Caller} : ∀ {es : List Expr}
    {m last : Machine} {values : List Value},
    evaluateAll host caller es m = .done values last → values.length = es.length
  | [], m, last, values, h => by
    obtain ⟨rfl, -⟩ := Outcome.done.inj h
    rfl
  | e :: es, m, last, values, h => by
    obtain ⟨value, mid, -, h⟩ := Run.done_of_bind h
    obtain ⟨others, _, hothers, h⟩ := Run.done_of_bind h
    obtain ⟨rfl, -⟩ := Outcome.done.inj h
    exact congrArg (· + 1) (length_of_evaluateAll hothers)

end TeachLang
