import TeachLang.Proofs.Stages

/-!
# Fuel

Fuel only bounds how far a run goes. `Run.Within` says that one run comes to the same end as another
wherever it comes to an end at all, and every run is within the one with more fuel. So whatever ends
has one end, however much fuel it was given.

The rules go along the ways in which runs are put together; fuel itself is only looked at by calls
and by the rounds of a loop.
-/

namespace TeachLang

variable {α β : Type}

namespace Run

/-- Where a run is not exhausted, another comes to the same end. -/
def Within (short long : Run α) : Prop := ∀ m, short m ≠ .exhausted → long m = short m

theorem within_refl (r : Run α) : r.Within r := fun _ _ => rfl

theorem within_exhausted (long : Run α) : (exhausted : Run α).Within long :=
  fun _ h => absurd rfl h

/-- If the first run is not exhausted, both go on with the same result. -/
theorem Within.bind {short long : Run α} {next next' : α → Run β} (h : short.Within long)
    (hnext : ∀ result, (next result).Within (next' result)) :
    (short >>= next).Within (long >>= next') := fun m hm => by
  change Run.bind long next' m = Run.bind short next m
  change Run.bind short next m ≠ _ at hm
  unfold Run.bind at hm ⊢
  cases hshort : short m with
  | done result mid =>
    rw [hshort] at hm
    rw [h m (by rw [hshort]; exact nofun), hshort]
    exact hnext result mid hm
  | failed d mid => rw [h m (by rw [hshort]; exact nofun), hshort]
  | exhausted =>
    rw [hshort] at hm
    exact absurd rfl hm

/-- A scope is left wherever a run comes to an end. -/
theorem Within.inScope {short long : Run α} (h : short.Within long) (parent : Nat) :
    (inScope parent short).Within (inScope parent long) := fun m hm => by
  unfold Run.inScope at hm ⊢
  cases hshort : short (m.enter parent) with
  | done result last => rw [h _ (by rw [hshort]; exact nofun), hshort]
  | failed d last => rw [h _ (by rw [hshort]; exact nofun), hshort]
  | exhausted =>
    rw [hshort] at hm
    exact absurd rfl hm

theorem Within.inBlock {short long : Run α} (h : short.Within long) :
    (inBlock short).Within (inBlock long) := fun m => h.inScope m.scope m

/-- Where the first run returns, the second is given no chance to be exhausted. -/
theorem Within.unlessReturned {short long next next' : Run Flow} (h : short.Within long)
    (hnext : next.Within next') : (short.unlessReturned next).Within (long.unlessReturned next') :=
  fun m hm => by
  unfold Run.unlessReturned at hm ⊢
  cases hshort : short m with
  | done flow mid =>
    rw [hshort] at hm
    rw [h m (by rw [hshort]; exact nofun), hshort]
    cases flow with
    | next => exact hnext mid hm
    | returned value => rfl
  | failed d mid => rw [h m (by rw [hshort]; exact nofun), hshort]
  | exhausted =>
    rw [hshort] at hm
    exact absurd rfl hm

/-- A loop that needs no more rounds than it has is not helped by more. -/
theorem Within.rounds {condition condition' : Run Bool} {round round' : Run Flow}
    (hcondition : condition.Within condition') (hround : round.Within round') :
    ∀ {left left' : Nat}, left ≤ left' →
      (rounds condition round left).Within (rounds condition' round' left') := by
  intro left
  induction left with
  | zero => exact fun _ => within_exhausted _
  | succ left ih =>
    intro left' hle m hm
    obtain ⟨more, rfl⟩ := Nat.exists_eq_add_of_lt hle
    unfold Run.rounds at hm ⊢
    cases hc : condition m with
    | done b mid =>
      rw [hc] at hm
      rw [hcondition m (by simp [hc]), hc]
      cases b with
      | true => exact hround.unlessReturned (ih (Nat.le_add_right left more)) mid hm
      | false => rfl
    | failed d mid => rw [hcondition m (by simp [hc]), hc]
    | exhausted =>
      rw [hc] at hm
      exact absurd rfl hm

/-- Items are no matter of fuel: both loops have the same. -/
theorem Within.forItems {round round' : Value → Run Flow}
    (h : ∀ item, (round item).Within (round' item)) :
    ∀ items, (forItems round items).Within (forItems round' items)
  | [] => within_refl _
  | item :: items => (h item).unlessReturned (Within.forItems h items)

end Run

/-! ## Expressions and statements -/

/-- Calls come to the same end wherever they come to one. -/
def Caller.Within (short long : Caller) : Prop :=
  ∀ name arguments position, (short name arguments position).Within (long name arguments position)

variable {host : Host} {caller caller' : Caller} {fuel fuel' : Nat}

namespace Expr

open Run

/-- An operator that leaves out its right operand leaves it out with more fuel, too. -/
theorem evaluateBinary_within {operator : Operator} {left : Value} {right right' : Run Value}
    (h : right.Within right') (position : Position) :
    (evaluateBinary operator left right position).Within
      (evaluateBinary operator left right' position) := by
  have htruth : (do
      let value ← right
      let b ← Run.ofExcept (value.truth position)
      return Value.boolean b : Run Value).Within (do
      let value ← right'
      let b ← Run.ofExcept (value.truth position)
      return Value.boolean b) := h.bind fun _ => within_refl _
  unfold evaluateBinary
  split
  · refine (within_refl _).bind fun b => ?_
    split
    · exact htruth
    · exact within_refl _
  · refine (within_refl _).bind fun b => ?_
    split
    · exact within_refl _
    · exact htruth
  · exact h.bind fun value => within_refl _

mutual

/-- An expression only needs fuel for its calls. -/
theorem evaluate_within (h : caller.Within caller') : ∀ e : Expr,
    (e.evaluate host caller).Within (e.evaluate host caller')
  | literal .. => within_refl _
  | group inner .. => evaluate_within h inner
  | binary _ left right _ _ =>
    (evaluate_within h left).bind fun _ => evaluateBinary_within (evaluate_within h right) _
  | name .. => within_refl _
  | member receiver .. => (evaluate_within h receiver).bind fun _ => within_refl _
  | call _ arguments .. => (evaluateAll_within h arguments).bind fun _ => h _ _ _
  | methodCall receiver _ arguments .. =>
    (evaluate_within h receiver).bind fun _ =>
      (evaluateAll_within h arguments).bind fun _ => within_refl _

theorem evaluateAll_within (h : caller.Within caller') : ∀ es : List Expr,
    (evaluateAll host caller es).Within (evaluateAll host caller' es)
  | [] => within_refl _
  | e :: es =>
    (evaluate_within h e).bind fun _ => (evaluateAll_within h es).bind fun _ => within_refl _

end

theorem evaluateTruth_within (h : caller.Within caller') (e : Expr) :
    (e.evaluateTruth host caller).Within (e.evaluateTruth host caller') :=
  (e.evaluate_within h).bind fun _ => within_refl _

theorem evaluateItems_within (h : caller.Within caller') (e : Expr) :
    (e.evaluateItems host caller).Within (e.evaluateItems host caller') :=
  (e.evaluate_within h).bind fun _ => within_refl _

/-- Places are looked up without fuel. -/
theorem assign_within (h : caller.Within caller') (target e : Expr) :
    (target.assign host caller e).Within (target.assign host caller' e) := by
  cases target with
  | name => exact (e.evaluate_within h).bind fun _ => within_refl _
  | member receiver =>
    refine (e.evaluate_within h).bind fun value => ?_
    split
    · exact within_refl _
    · exact (receiver.evaluate_within h).bind fun _ => within_refl _
  | _ => exact within_refl _

end Expr

theorem Run.value_within (h : caller.Within caller') (value : Option Expr) :
    (value.elim (Run.pure .nil) (Expr.evaluate host caller)).Within
      (value.elim (Run.pure .nil) (Expr.evaluate host caller')) := by
  cases value with
  | none => exact within_refl _
  | some e => exact e.evaluate_within h

namespace Stmt

open Run

mutual

/-- A statement passes the fuel on to its parts and spends none of it, but for the rounds of a loop.
-/
theorem execute_within (h : caller.Within caller') (hle : fuel ≤ fuel') : ∀ stmt : Stmt,
    (stmt.execute host caller fuel).Within (stmt.execute host caller' fuel')
  | expression e _ => (e.evaluate_within h).bind fun _ => within_refl _
  | declaration _ _ value _ _ => (value_within h value).bind fun _ => within_refl _
  | assignment target value _ => (target.assign_within h value).bind fun _ => within_refl _
  | conditional condition thenBody elseBody _ => by
    refine (condition.evaluateTruth_within h).bind fun b => ?_
    split
    · exact (executeAll_within h hle thenBody).inBlock
    · exact (executeAll_within h hle elseBody).inBlock
  | forEach _ items body _ =>
    (items.evaluateItems_within h).bind fun values =>
      Within.forItems (fun _ => Within.inBlock
        ((within_refl _).bind fun _ => executeAll_within h hle body)) values
  | whileLoop condition body _ =>
    (condition.evaluateTruth_within h).rounds (executeAll_within h hle body).inBlock hle
  | returns value _ => (value.evaluate_within h).bind fun _ => within_refl _

theorem executeAll_within (h : caller.Within caller') (hle : fuel ≤ fuel') :
    ∀ stmts : List Stmt,
      (executeAll host caller fuel stmts).Within (executeAll host caller' fuel' stmts)
  | [] => within_refl _
  | stmt :: stmts => (execute_within h hle stmt).unlessReturned (executeAll_within h hle stmts)

end

end Stmt

/-! ## All work -/

namespace Run

/-- A call gives its body less fuel than it has itself, so this goes by induction on the smaller
fuel. -/
theorem call_within (host : Host) : ∀ {fuel fuel' : Nat}, fuel ≤ fuel' →
    Caller.Within (call host fuel) (call host fuel')
  | 0, _, _, _, _, _ => within_exhausted _
  | fuel + 1, fuel' + 1, hle, name, arguments, position => by
    refine (within_refl _).bind fun callable => ?_
    split
    · exact within_refl _
    · exact within_refl _
    · next method scope =>
      have hless := Nat.le_of_succ_le_succ hle
      have hbody : (Stmt.executeAll host (call host fuel) fuel method.body).Within
          (Stmt.executeAll host (call host fuel') fuel' method.body) :=
        Stmt.executeAll_within (call_within host hless) hless method.body
      have hmethod : Within (do
          declareParameters method.span.start method.parameters arguments
          Stmt.executeAll host (call host fuel) fuel method.body) (do
          declareParameters method.span.start method.parameters arguments
          Stmt.executeAll host (call host fuel') fuel' method.body) :=
        (within_refl _).bind fun _ => hbody
      exact (hmethod.inScope scope).bind fun _ => within_refl _

/-- What is executed with the calls of the machine needs fuel for both. -/
theorem execute_within (host : Host) (hle : fuel ≤ fuel') (stmts : List Stmt) :
    (execute host fuel stmts).Within (execute host fuel' stmts) :=
  Stmt.executeAll_within (call_within host hle) hle stmts

/-- The first values of fields may call what the host supplies. -/
theorem defineFields_within (host : Host) (hle : fuel ≤ fuel') : ∀ fields,
    (defineFields host fuel fields).Within (defineFields host fuel' fields)
  | [] => within_refl _
  | field :: fields =>
    (value_within (call_within host hle) field.value).bind fun _ =>
      (within_refl _).bind fun _ => defineFields_within host hle fields

end Run

namespace Work

open Run

/-- What ends comes to the same end with more fuel. -/
theorem run_within (host : Host) (hle : fuel ≤ fuel') (work : Work) :
    (work.run host fuel).Within (work.run host fuel') := by
  have hcalls := call_within host hle
  have hbody := execute_within host hle
  cases work with
  | program p =>
    exact (defineFields_within host hle p.fields).bind fun _ =>
      (within_refl _).bind fun _ => hcalls _ _ _
  | fields fields => exact defineFields_within host hle fields
  | methods => exact within_refl _
  | call name arguments position => exact hcalls name arguments position
  | parameters => exact within_refl _
  | evaluate e => exact e.evaluate_within hcalls
  | evaluateAll es => exact Expr.evaluateAll_within hcalls es
  | execute stmt => exact stmt.execute_within hcalls hle
  | executeAll stmts => exact hbody stmts
  | rounds condition body left =>
    exact (condition.evaluateTruth_within hcalls).rounds (hbody body).inBlock (Nat.le_refl left)
  | items _ items body _ =>
    exact Within.forItems (fun _ => Within.inBlock ((within_refl _).bind fun _ => hbody body)) items
  | round _ _ body _ => exact (within_refl _).bind fun _ => hbody body

/-- Work has one end. -/
theorem run_unique (host : Host) (work : Work) {m : Machine}
    (h : work.run host fuel m ≠ .exhausted) (h' : work.run host fuel' m ≠ .exhausted) :
    work.run host fuel m = work.run host fuel' m := by
  rcases Nat.le_total fuel fuel' with hle | hle
  · exact (work.run_within host hle m h).symm
  · exact work.run_within host hle m h'

end Work

end TeachLang
