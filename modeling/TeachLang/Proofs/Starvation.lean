import TeachLang.Proofs.Stages

/-!
# Starvation

A run can only be exhausted in two ways: it comes to a call, or to the rounds of a `WHILE` loop,
and there is no fuel left. `Stage.starves_of_exhausted` says so of all work: whatever is exhausted
comes to a **starved** stage on its way. So what never comes to one ends.
-/

namespace TeachLang

variable {α β : Type}

/-! ## Runs that end -/

namespace Run

/-- A run that is never exhausted. -/
def Ends (r : Run α) : Prop := ∀ m, r m ≠ .exhausted

theorem ends_pure (result : α) : (Run.pure result).Ends := nofun

theorem ends_fail (fault : Fault) (position : Position) : (fail fault position : Run α).Ends :=
  nofun

theorem ends_ofExcept (result : Except Diagnostic α) : (ofExcept result).Ends := by
  intro m
  cases result <;> exact nofun

/-- Looking at the machine needs no fuel. -/
theorem ends_look (f : Machine → Except Diagnostic α) : (look f).Ends :=
  fun m => ends_ofExcept (f m) m

/-- Nor does changing it. -/
theorem ends_change (f : Machine → Except Diagnostic Machine) : (change f).Ends := by
  intro m
  rw [change]
  cases f m <;> exact nofun

/-- Where one run goes on with the result of another, one of the two is exhausted. -/
theorem exhausted_of_bind {first : Run α} {next : α → Run β} {m : Machine}
    (h : (first >>= next) m = .exhausted) :
    first m = .exhausted ∨
      ∃ result mid, first m = .done result mid ∧ next result mid = .exhausted := by
  change Run.bind first next m = _ at h
  rw [Run.bind] at h
  cases hfirst : first m with
  | done result mid =>
    rw [hfirst] at h
    exact .inr ⟨result, mid, rfl, h⟩
  | failed d mid =>
    rw [hfirst] at h
    cases h
  | exhausted => exact .inl rfl

/-- Where only an end is left, it was the first run that was exhausted. -/
theorem exhausted_of_bind_ends {first : Run α} {next : α → Run β} {m : Machine}
    (h : (first >>= next) m = .exhausted) (hnext : ∀ result, (next result).Ends) :
    first m = .exhausted := by
  rcases exhausted_of_bind h with h | ⟨result, mid, -, h⟩
  · exact h
  · exact absurd h (hnext result mid)

theorem Ends.bind {first : Run α} {next : α → Run β} (h : first.Ends)
    (hnext : ∀ result, (next result).Ends) : (first >>= next).Ends := fun m hm =>
  h m (exhausted_of_bind_ends hm hnext)

/-- A scope that is exhausted was so from the inside. -/
theorem exhausted_of_inScope {parent : Nat} {inner : Run α} {m : Machine}
    (h : inScope parent inner m = .exhausted) : inner (m.enter parent) = .exhausted := by
  simp only [inScope] at h
  cases hinner : inner (m.enter parent) with
  | exhausted => rfl
  | _ =>
    rw [hinner] at h
    cases h

/-- Statements are exhausted at the first, or behind it if it did not return. -/
theorem exhausted_of_unlessReturned {first next : Run Flow} {m : Machine}
    (h : first.unlessReturned next m = .exhausted) :
    first m = .exhausted ∨ ∃ mid, first m = .done .next mid ∧ next mid = .exhausted := by
  rw [unlessReturned] at h
  cases hfirst : first m with
  | done flow mid =>
    rw [hfirst] at h
    cases flow with
    | next => exact .inr ⟨mid, rfl, h⟩
    | returned value => cases h
  | failed d mid =>
    rw [hfirst] at h
    cases h
  | exhausted => exact .inl rfl

/-- A loop with a round left is exhausted at its condition, or in what comes behind a condition that
holds. -/
theorem exhausted_of_rounds {condition : Run Bool} {round : Run Flow} {left : Nat} {m : Machine}
    (h : rounds condition round (left + 1) m = .exhausted) :
    condition m = .exhausted ∨ ∃ mid, condition m = .done true mid ∧
      round.unlessReturned (rounds condition round left) mid = .exhausted := by
  unfold rounds at h
  cases hcondition : condition m with
  | done b mid =>
    rw [hcondition] at h
    cases b with
    | false => cases h
    | true => exact .inr ⟨mid, rfl, h⟩
  | failed d mid =>
    rw [hcondition] at h
    cases h
  | exhausted => exact .inl rfl

/-- Parameters are declared without fuel. -/
theorem ends_declareParameters (position : Position) :
    ∀ (parameters : List (String × String)) (values : List Value),
      (declareParameters position parameters values).Ends
  | _ :: parameters, _ :: values =>
    (ends_change _).bind fun _ => ends_declareParameters position parameters values
  | [], _ => ends_pure _
  | _ :: _, [] => ends_pure _

theorem ends_defineMethods : ∀ methods : List Method, (defineMethods methods).Ends
  | [] => ends_pure _
  | _ :: methods => (ends_change _).bind fun _ => ends_defineMethods methods

end Run

/-! ## Starved stages -/

namespace Stage

variable {host : Host}

/-- There is no fuel for what is to be done. -/
def Starved (s : Stage) : Prop :=
  match s.work with
  | .call .. => s.fuel = 0
  | .rounds _ _ left => left = 0
  | _ => False

/-- A stage comes to a starved one on its way. -/
def Starves (host : Host) (s : Stage) : Prop := ∃ t, s.Way host t ∧ t.Starved

/-- A starved stage is on its own way. -/
theorem Starved.starves {s : Stage} (h : s.Starved) : s.Starves host := ⟨s, .refl, h⟩

/-- What a stage comes to next is on its way, with all that it comes to itself. -/
theorem Next.starves {s t : Stage} (h : s.Next host t) (ht : t.Starves host) : s.Starves host := by
  obtain ⟨u, hway, hu⟩ := ht
  exact ⟨u, .head h hway, hu⟩

end Stage

/-! ## Expressions -/

variable {host : Host} {fuel : Nat}

/-- Calls with so much fuel are only exhausted if they starve. -/
def Run.CallsStarve (host : Host) (fuel : Nat) : Prop :=
  ∀ {name arguments position m}, call host fuel name arguments position m = .exhausted →
    Stage.Starves host ⟨fuel, .call name arguments position, m⟩

namespace Expr

open Run Stage

/-- An operator is only exhausted by its right operand, and only if the left one lets that in. -/
theorem exhausted_of_evaluateBinary {operator : Operator} {value : Value} {right : Run Value}
    {position : Position} {m : Machine}
    (h : evaluateBinary operator value right position m = .exhausted) :
    right m = .exhausted ∧ (operator = .and → value.truth position = .ok true) ∧
      (operator = .or → value.truth position = .ok false) := by
  -- the left operand is looked at first, and only lets the right one in if it does not decide
  have hdecided : ∀ {next : Bool → Run Value},
      (ofExcept (value.truth position) >>= next) m = .exhausted →
        ∃ b, value.truth position = .ok b ∧ next b m = .exhausted := by
    intro next h
    cases htruth : value.truth position with
    | error d =>
      rw [htruth] at h
      cases h
    | ok b =>
      rw [htruth] at h
      exact ⟨b, rfl, h⟩
  unfold evaluateBinary at h
  split at h
  · obtain ⟨b, htruth, h⟩ := hdecided h
    cases b with
    | false => exact absurd h (ends_pure _ m)
    | true =>
      exact ⟨exhausted_of_bind_ends h fun _ => (ends_ofExcept _).bind fun _ => ends_pure _,
        fun _ => htruth, nofun⟩
  · obtain ⟨b, htruth, h⟩ := hdecided h
    cases b with
    | true => exact absurd h (ends_pure _ m)
    | false =>
      exact ⟨exhausted_of_bind_ends h fun _ => (ends_ofExcept _).bind fun _ => ends_pure _,
        nofun, fun _ => htruth⟩
  · next hand hor =>
    exact ⟨exhausted_of_bind_ends h fun _ => ends_ofExcept _, fun heq => absurd heq hand,
      fun heq => absurd heq hor⟩

mutual

/-- An expression that is exhausted starves in one of its calls. -/
theorem starves_of_evaluate (hcall : CallsStarve host fuel) : ∀ {e : Expr} {m : Machine},
    Run.evaluate host fuel e m = .exhausted → Starves host ⟨fuel, .evaluate e, m⟩
  | literal .., m, h => absurd h (ends_pure _ m)
  | group inner _ _, m, h => Next.group.starves (starves_of_evaluate hcall h)
  | binary operator left right _ span, m, h => by
    rcases exhausted_of_bind h with h | ⟨value, mid, hleft, h⟩
    · exact Next.left.starves (starves_of_evaluate hcall h)
    · obtain ⟨h, hand, hor⟩ := exhausted_of_evaluateBinary h
      exact (Next.right hleft hand hor).starves (starves_of_evaluate hcall h)
  | name n _ span, m, h => absurd h (ends_look (·.lookupVariable n span.start) m)
  | member receiver _ _ _, m, h =>
    Next.receiver.starves
      (starves_of_evaluate hcall (exhausted_of_bind_ends h fun _ => ends_ofExcept _))
  | call _ arguments _ _, m, h => by
    rcases exhausted_of_bind h with h | ⟨values, mid, harguments, h⟩
    · exact Next.arguments.starves (starves_of_evaluateAll hcall h)
    · exact (Next.call harguments).starves (hcall h)
  | methodCall receiver _ arguments _ _, m, h => by
    rcases exhausted_of_bind h with h | ⟨value, mid, hreceiver, h⟩
    · exact Next.methodReceiver.starves (starves_of_evaluate hcall h)
    · exact (Next.methodArguments hreceiver).starves
        (starves_of_evaluateAll hcall (exhausted_of_bind_ends h fun _ => ends_ofExcept _))

theorem starves_of_evaluateAll (hcall : CallsStarve host fuel) : ∀ {es : List Expr} {m : Machine},
    evaluateAll host (Run.call host fuel) es m = .exhausted →
      Starves host ⟨fuel, .evaluateAll es, m⟩
  | [], m, h => absurd h (ends_pure _ m)
  | e :: es, m, h => by
    rcases exhausted_of_bind h with h | ⟨value, mid, hfirst, h⟩
    · exact Next.first.starves (starves_of_evaluate hcall h)
    · exact (Next.others hfirst).starves
        (starves_of_evaluateAll hcall (exhausted_of_bind_ends h fun _ => ends_pure _))

end

theorem exhausted_of_evaluateTruth {condition : Expr} {m : Machine}
    (h : condition.evaluateTruth host (Run.call host fuel) m = .exhausted) :
    Run.evaluate host fuel condition m = .exhausted :=
  exhausted_of_bind_ends h fun _ => ends_ofExcept _

/-- What a loop runs over is found without fuel, once it is evaluated. -/
theorem exhausted_of_evaluateItems {items : Expr} {m : Machine}
    (h : items.evaluateItems host (Run.call host fuel) m = .exhausted) :
    Run.evaluate host fuel items m = .exhausted := by
  refine exhausted_of_bind_ends h fun value => ?_
  split
  · exact ends_pure _
  · exact ends_fail _ _

end Expr

/-- There is a first value to be exhausted by. -/
theorem Run.exhausted_of_value {value : Option Expr} {m : Machine}
    (h : value.elim (Run.pure .nil) (Run.evaluate host fuel) m = .exhausted) :
    ∃ e, value = some e ∧ Run.evaluate host fuel e m = .exhausted := by
  cases value with
  | none => exact absurd h (ends_pure _ m)
  | some e => exact ⟨e, rfl, h⟩

/-! ## Statements -/

namespace Stmt

open Run Stage

/-- An assignment evaluates its value, and its receiver if that designates no place. -/
theorem starves_of_assign (hcall : CallsStarve host fuel) {target e : Expr} {span : Span}
    {m : Machine} (h : target.assign host (Run.call host fuel) e m = .exhausted) :
    Starves host ⟨fuel, .execute (.assignment target e span), m⟩ := by
  cases target with
  | name n binding s =>
    have he := exhausted_of_bind_ends h fun _ => ends_change _
    exact (Next.assigned rfl).starves (Expr.starves_of_evaluate hcall he)
  | member receiver n binding s =>
    rcases exhausted_of_bind h with h | ⟨value, mid, hvalue, h⟩
    · exact (Next.assigned rfl).starves (Expr.starves_of_evaluate hcall h)
    · cases hplace : receiver.place? with
      | some place =>
        simp only [hplace] at h
        exact absurd h (ends_change _ mid)
      | none =>
        simp only [hplace] at h
        have hreceiver := exhausted_of_bind_ends h fun _ =>
          (ends_ofExcept _).bind fun _ => ends_pure _
        exact (Next.temporary hplace hvalue).starves (Expr.starves_of_evaluate hcall hreceiver)
  | _ => exact absurd h (ends_fail _ _ m)

theorem starves_of_round {n : String} {item : Value} {body : List Stmt} {position : Position}
    (hbody : ∀ {m}, Run.execute host fuel body m = .exhausted →
      Starves host ⟨fuel, .executeAll body, m⟩) {m : Machine}
    (h : (Work.round n item body position).run host fuel m = .exhausted) :
    Starves host ⟨fuel, .round n item body position, m⟩ := by
  rcases exhausted_of_bind h with h | ⟨_, mid, hdeclare, h⟩
  · exact absurd h (ends_change _ m)
  · exact (Next.roundBody (eq_of_change hdeclare)).starves (hbody h)

/-- A loop over items starves in one of its rounds. -/
theorem starves_of_items {n : String} {body : List Stmt} {position : Position}
    (hbody : ∀ {m}, Run.execute host fuel body m = .exhausted →
      Starves host ⟨fuel, .executeAll body, m⟩) :
    ∀ (values : List Value) {m : Machine},
      (Work.items n values body position).run host fuel m = .exhausted →
        Starves host ⟨fuel, .items n values body position, m⟩
  | [], m, h => absurd h (ends_pure _ m)
  | value :: values, m, h => by
    rcases exhausted_of_unlessReturned h with h | ⟨mid, hround, h⟩
    · exact Next.itemRound.starves (starves_of_round hbody (exhausted_of_inScope h))
    · exact (Next.otherItems hround).starves (starves_of_items hbody values h)

/-- A loop with a condition starves in one of its rounds, or has none left. -/
theorem starves_of_rounds (hcall : CallsStarve host fuel) {condition : Expr} {body : List Stmt}
    (hbody : ∀ {m}, Run.execute host fuel body m = .exhausted →
      Starves host ⟨fuel, .executeAll body, m⟩) :
    ∀ (left : Nat) {m : Machine}, (Work.rounds condition body left).run host fuel m = .exhausted →
      Starves host ⟨fuel, .rounds condition body left, m⟩
  | 0, m, _ => Starved.starves rfl
  | left + 1, m, h => by
    rcases exhausted_of_rounds h with h | ⟨mid, hcondition, h⟩
    · exact Next.roundCondition.starves
        (Expr.starves_of_evaluate hcall (Expr.exhausted_of_evaluateTruth h))
    · rcases exhausted_of_unlessReturned h with h | ⟨last, hround, h⟩
      · exact (Next.roundBlock hcondition).starves (hbody (exhausted_of_inScope h))
      · exact (Next.otherRounds hcondition hround).starves (starves_of_rounds hcall hbody left h)

mutual

/-- A statement that is exhausted starves on its way: there is one case for each constructor. -/
theorem starves_of_execute (hcall : CallsStarve host fuel) : ∀ {stmt : Stmt} {m : Machine},
    stmt.execute host (Run.call host fuel) fuel m = .exhausted →
      Starves host ⟨fuel, .execute stmt, m⟩
  | expression e _, m, h =>
    Next.expression.starves
      (Expr.starves_of_evaluate hcall (exhausted_of_bind_ends h fun _ => ends_pure _))
  | declaration _ _ value _ span, m, h => by
    have hvalue := exhausted_of_bind_ends h fun _ => (ends_change _).bind fun _ => ends_pure _
    obtain ⟨e, rfl, he⟩ := exhausted_of_value hvalue
    exact Next.initial.starves (Expr.starves_of_evaluate hcall he)
  | assignment target value span, m, h =>
    starves_of_assign hcall (exhausted_of_bind_ends h fun _ => ends_pure _)
  | conditional condition thenBody elseBody _, m, h => by
    rcases exhausted_of_bind h with h | ⟨b, mid, hcondition, h⟩
    · exact Next.condition.starves
        (Expr.starves_of_evaluate hcall (Expr.exhausted_of_evaluateTruth h))
    · refine (Next.branch hcondition).starves ?_
      cases b with
      | true => exact starves_of_executeAll hcall (exhausted_of_inScope h)
      | false => exact starves_of_executeAll hcall (exhausted_of_inScope h)
  | forEach n items body span, m, h => by
    rcases exhausted_of_bind h with h | ⟨values, mid, hitems, h⟩
    · exact Next.iterated.starves
        (Expr.starves_of_evaluate hcall (Expr.exhausted_of_evaluateItems h))
    · exact (Next.items hitems).starves
        (starves_of_items (fun h => starves_of_executeAll hcall h) values h)
  | whileLoop condition body _, m, h =>
    Next.whileLoop.starves
      (starves_of_rounds hcall (fun h => starves_of_executeAll hcall h) fuel h)
  | returns value _, m, h =>
    Next.returned.starves
      (Expr.starves_of_evaluate hcall (exhausted_of_bind_ends h fun _ => ends_pure _))

theorem starves_of_executeAll (hcall : CallsStarve host fuel) : ∀ {stmts : List Stmt} {m : Machine},
    Run.execute host fuel stmts m = .exhausted → Starves host ⟨fuel, .executeAll stmts, m⟩
  | [], m, h => absurd h (ends_pure _ m)
  | stmt :: stmts, m, h => by
    rcases exhausted_of_unlessReturned h with h | ⟨mid, hstmt, h⟩
    · exact Next.statement.starves (starves_of_execute hcall h)
    · exact (Next.statements hstmt).starves (starves_of_executeAll hcall h)

end

end Stmt

/-! ## All work -/

namespace Run

open Stage

/-- A call without fuel is starved itself, and the body of a method has less: this goes by induction
on the fuel. -/
theorem callsStarve (host : Host) : ∀ fuel, CallsStarve host fuel
  | 0, _, _, _, _, _ => Starved.starves rfl
  | fuel + 1, name, arguments, position, m, h => by
    rcases exhausted_of_bind h with h | ⟨callable, mid, hlook, h⟩
    · exact absurd h (ends_look (·.lookupFunction name arguments.length position) m)
    obtain ⟨hfound, rfl⟩ := eq_of_look hlook
    cases callable with
    | print => cases h
    | native answer => exact absurd h (ends_ofExcept _ mid)
    | method method home =>
      have hbody := exhausted_of_inScope (exhausted_of_bind_ends h fun _ => ends_pure _)
      rcases exhausted_of_bind hbody with hparameters | ⟨_, inner, hparameters, hbody⟩
      · exact absurd hparameters (ends_declareParameters _ _ _ _)
      · exact (Next.body hfound hparameters).starves
          (Stmt.starves_of_executeAll (callsStarve host fuel) hbody)

/-- Fields starve in one of their first values. -/
theorem starves_of_defineFields : ∀ {fields : List Field} {m : Machine},
    defineFields host fuel fields m = .exhausted → Starves host ⟨fuel, .fields fields, m⟩
  | [], m, h => absurd h (ends_pure _ m)
  | f :: fields, m, h => by
    rcases exhausted_of_bind h with h | ⟨value, mid, hvalue, h⟩
    · obtain ⟨e, he, h⟩ := exhausted_of_value h
      exact (Next.fieldValue he).starves (Expr.starves_of_evaluate (callsStarve host fuel) h)
    · rcases exhausted_of_bind h with h | ⟨_, last, hdeclare, h⟩
      · exact absurd h (ends_change _ mid)
      · exact (Next.otherFields hvalue (eq_of_change hdeclare)).starves (starves_of_defineFields h)

end Run

namespace Stage

open Run

/-- Whatever is exhausted comes to a starved stage on its way. -/
theorem starves_of_exhausted {work : Work} {m : Machine}
    (h : work.run host fuel m = .exhausted) : Starves host ⟨fuel, work, m⟩ := by
  have hcall : CallsStarve host fuel := callsStarve host fuel
  cases work with
  | program p =>
    rcases exhausted_of_bind h with h | ⟨_, mid, hfields, h⟩
    · exact Next.programFields.starves (starves_of_defineFields h)
    · rcases exhausted_of_bind h with h | ⟨_, last, hmethods, h⟩
      · exact absurd h (ends_defineMethods _ mid)
      · exact (Next.programEntry hfields hmethods).starves (hcall h)
  | fields fields => exact starves_of_defineFields h
  | methods methods => exact absurd h (ends_defineMethods methods m)
  | call name arguments position => exact hcall h
  | parameters position parameters values => exact absurd h (ends_declareParameters _ _ _ m)
  | evaluate e => exact Expr.starves_of_evaluate hcall h
  | evaluateAll es => exact Expr.starves_of_evaluateAll hcall h
  | execute stmt => exact Stmt.starves_of_execute hcall h
  | executeAll stmts => exact Stmt.starves_of_executeAll hcall h
  | rounds condition body left =>
    exact Stmt.starves_of_rounds hcall (Stmt.starves_of_executeAll hcall) left h
  | items n values body position =>
    exact Stmt.starves_of_items (Stmt.starves_of_executeAll hcall) values h
  | round n item body position => exact Stmt.starves_of_round (Stmt.starves_of_executeAll hcall) h

end Stage

end TeachLang
