import TeachLang.Proofs.Stages

/-!
# Machines in lockstep

Two machines that differ in something that no program can look at come to the same when they are
given the same work. `Lockstep R S` says of a relation `R` between machines that it is of this kind:
names mean the same on both, and they are still related after each of the few things that a run does
to a machine. `Run.Respects` is what follows for a run: it ends alike on both. There is one rule for
each way in which runs are put together, up to calls (`Run.call_respects`).
-/

namespace TeachLang

variable {α β : Type}

/-! ## Runs side by side -/

/-- Two runs end alike: with the same result, with the same diagnostic or both for lack of fuel, on
machines that are related. -/
inductive Outcome.Alike (R : Machine → Machine → Prop) : Outcome α → Outcome α → Prop where
  /-- both are done -/
  | done {result : α} {m n : Machine} : R m n → Alike R (.done result m) (.done result n)
  /-- both fail -/
  | failed {d : Diagnostic} {m n : Machine} : R m n → Alike R (.failed d m) (.failed d n)
  /-- both are exhausted -/
  | exhausted : Alike R .exhausted .exhausted

/-- What goes on alike behind what ended alike ends alike. -/
theorem Outcome.Alike.bind {R R' : Machine → Machine → Prop} {first : Run α} {next : α → Run β}
    {m n : Machine} (h : Outcome.Alike R (first m) (first n))
    (hnext : ∀ {result m' n'}, first m = .done result m' → R m' n' →
      Outcome.Alike R' (next result m') (next result n'))
    (hfailed : ∀ {m' n'}, R m' n' → R' m' n') :
    Outcome.Alike R' ((first >>= next) m) ((first >>= next) n) := by
  change Outcome.Alike R' (Run.bind first next m) (Run.bind first next n)
  unfold Run.bind
  cases hm : first m <;> cases hn : first n <;> rw [hm, hn] at h <;> cases h
  · next hR => exact hnext hm hR
  · next hR => exact .failed (hfailed hR)
  · exact .exhausted

/-- A relation `R` between machines that no run can break. Inside the scopes that are entered on the
way `S` holds of them. It may say more than `R`, and variables are only declared where it does. -/
structure Lockstep (R S : Machine → Machine → Prop) : Prop where
  /-- the one is sound -/
  left : ∀ {m n}, R m n → m.Sound
  /-- and so is the other -/
  right : ∀ {m n}, R m n → n.Sound
  /-- variables have the same values -/
  lookupVariable : ∀ {m n}, R m n → ∀ name position,
    m.lookupVariable name position = n.lookupVariable name position
  /-- calls mean the same -/
  lookupFunction : ∀ {m n}, R m n → ∀ name arity position,
    m.lookupFunction name arity position = n.lookupFunction name arity position
  /-- a variable can be declared on both or on neither -/
  declare : ∀ {m n}, S m n → ∀ name value position,
    (∃ d, m.declare name value position = .error d ∧ n.declare name value position = .error d) ∨
      ∃ m' n', m.declare name value position = .ok m' ∧ n.declare name value position = .ok n' ∧
        S m' n'
  /-- a variable can be given another value on both or on neither -/
  assign : ∀ {m n}, R m n → ∀ name value position,
    (∃ d, m.assign name value position = .error d ∧ n.assign name value position = .error d) ∨
      ∃ m' n', m.assign name value position = .ok m' ∧ n.assign name value position = .ok n' ∧
        R m' n'
  /-- both can enter a scope inside the one in which they stand -/
  block : ∀ {m n}, R m n → S (m.enter m.scope) (n.enter n.scope)
  /-- both can enter a scope inside the root -/
  method : ∀ {m n}, R m n → S (m.enter Scopes.root) (n.enter Scopes.root)
  /-- both can leave a scope, if nothing more is left of it -/
  leave : ∀ {m n m' n'}, R m n → S m' n' →
    m.Keeps none none (m'.leave m.scopes.fresh m.scope) →
    n.Keeps none none (n'.leave n.scopes.fresh n.scope) →
    R (m'.leave m.scopes.fresh m.scope) (n'.leave n.scopes.fresh n.scope)
  /-- both can print -/
  print : ∀ {m n}, R m n → ∀ more,
    R { m with printer := m.printer.append more } { n with printer := n.printer.append more }

/-! ## Definitions on both sides -/

namespace Machine

variable {m n : Machine} {name : String}

/-- Where both have the variable or neither has, it can be declared on neither or on both. -/
theorem declare_alike
    (h : m.scopes.variableIn? name m.scope = n.scopes.variableIn? name n.scope) (value : Value)
    (position : Position) :
    (∃ d, m.declare name value position = .error d ∧ n.declare name value position = .error d) ∨
      (m.declare name value position =
          .ok { m with scopes := m.scopes.extend m.scope [(name, value)] } ∧
        n.declare name value position =
          .ok { n with scopes := n.scopes.extend n.scope [(name, value)] }) := by
  cases hn : n.scopes.variableIn? name n.scope with
  | some found =>
    rw [hn] at h
    refine .inl ⟨⟨.duplicateDefinition name, position⟩, ?_, ?_⟩
    · rw [declare, changeScopes, Scopes.defineVariable, h]
    · rw [declare, changeScopes, Scopes.defineVariable, hn]
  | none =>
    rw [hn] at h
    refine .inr ⟨?_, ?_⟩
    · rw [declare, changeScopes, Scopes.defineVariable_eq h]
    · rw [declare, changeScopes, Scopes.defineVariable_eq hn]

/-- Where a name has a home on both or on neither, it can be assigned to on both or on neither. -/
theorem assign_alike {P : Nat → Nat → Prop}
    (h : Option.Rel P (m.scopes.home? m.scope name) (n.scopes.home? n.scope name)) (value : Value)
    (position : Position) :
    (∃ d, m.assign name value position = .error d ∧ n.assign name value position = .error d) ∨
      ∃ i j, P i j ∧
        m.assign name value position =
          .ok { m with scopes := ⟨m.scopes.scopes.modify i (·.setVariable name value)⟩ } ∧
        n.assign name value position =
          .ok { n with scopes := ⟨n.scopes.scopes.modify j (·.setVariable name value)⟩ } := by
  rcases hm : m.scopes.home? m.scope name with _ | i <;>
    rcases hn : n.scopes.home? n.scope name with _ | j <;> rw [hm, hn] at h
  · refine .inl ⟨⟨.undefinedName name, position⟩, ?_, ?_⟩
    · rw [assign, changeScopes, Scopes.assign, hm]
    · rw [assign, changeScopes, Scopes.assign, hn]
  · cases h
  · cases h
  · cases h with
    | some hij =>
      refine .inr ⟨i, j, hij, ?_, ?_⟩
      · rw [assign, changeScopes, Scopes.assign, hm]
      · rw [assign, changeScopes, Scopes.assign, hn]

end Machine

variable {R S : Machine → Machine → Prop}

namespace Run

/-- A run ends alike on related machines, and leaves them related. -/
def Respects (R : Machine → Machine → Prop) (r : Run α) : Prop :=
  ∀ m n, R m n → Outcome.Alike R (r m) (r n)

/-- A run that does nothing leaves two machines related. -/
theorem respects_pure (result : α) : (Run.pure result).Respects R := fun _ _ h => .done h

theorem respects_ofExcept (result : Except Diagnostic α) : (ofExcept result).Respects R :=
  fun _ _ h => by
  cases result with
  | ok result => exact .done h
  | error d => exact .failed h

theorem respects_fail (fault : Fault) (position : Position) :
    (fail fault position : Run α).Respects R := fun _ _ h => .failed h

/-- What is looked at is the same on both machines. -/
theorem respects_look {f : Machine → Except Diagnostic α}
    (hf : ∀ {m n}, R m n → f m = f n) : (look f).Respects R := fun m n h => by
  have hlook := respects_ofExcept (f m) m n h
  unfold look
  rwa [hf h] at hlook ⊢

/-- A change goes well on both machines or on none, and with the same fault. -/
theorem respects_change {f : Machine → Except Diagnostic Machine}
    (hf : ∀ {m n}, R m n → (∃ d, f m = .error d ∧ f n = .error d) ∨
      ∃ m' n', f m = .ok m' ∧ f n = .ok n' ∧ R m' n') : (change f).Respects R :=
  fun m n h => by
    unfold change
    rcases hf h with ⟨d, hm, hn⟩ | ⟨m', n', hm, hn, h'⟩ <;> rw [hm, hn]
    · exact .failed h
    · exact .done h'

/-- Runs one after the other end alike if each does. -/
theorem Respects.bind {first : Run α} {next : α → Run β} (h : first.Respects R)
    (hnext : ∀ result, (next result).Respects R) : (first >>= next).Respects R :=
  fun m n hmn => (h m n hmn).bind (fun _ hmid => hnext _ _ _ hmid) id

/-- Runs that end alike in a scope of their own end alike when they have left it. -/
theorem alike_inScope {R R' : Machine → Machine → Prop} {inner : Run α} {m n : Machine} {i j : Nat}
    (h : Outcome.Alike R (inner (m.enter i)) (inner (n.enter j))) (hstays : inner.Stays some none)
    (hm : 0 < m.depth) (hn : 0 < n.depth)
    (hleave : ∀ {m' n'}, R m' n' → m.Keeps none none (m'.leave m.scopes.fresh m.scope) →
      n.Keeps none none (n'.leave n.scopes.fresh n.scope) →
      R' (m'.leave m.scopes.fresh m.scope) (n'.leave n.scopes.fresh n.scope)) :
    Outcome.Alike R' (inScope i inner m) (inScope j inner n) := by
  have hkeeps := hstays.inScope i m hm
  have hkeeps' := hstays.inScope j n hn
  unfold Leaves Ensures inScope at hkeeps hkeeps'
  unfold inScope
  cases hl : inner (m.enter i) <;> cases hr : inner (n.enter j) <;> rw [hl, hr] at h <;>
    rw [hl] at hkeeps <;> rw [hr] at hkeeps' <;> cases h
  · next hlast => exact .done (hleave hlast hkeeps hkeeps')
  · next hlast => exact .failed (hleave hlast hkeeps hkeeps')
  · exact .exhausted

/-- In the scope of a block the stronger relation holds, and behind it the weaker one is back. -/
theorem Respects.inBlock {inner : Run α} (h : inner.Respects S) (hR : Lockstep R S)
    (hstays : inner.Stays some none) : (inBlock inner).Respects R := fun _ _ hmn =>
  alike_inScope (h _ _ (hR.block hmn)) hstays (hR.left hmn).depth_pos (hR.right hmn).depth_pos
    (hR.leave hmn)

theorem Respects.unlessReturned {first next : Run Flow} (h : first.Respects R)
    (hnext : next.Respects R) : (first.unlessReturned next).Respects R := fun m n hmn => by
  have hfirst := h m n hmn
  unfold Run.unlessReturned
  cases hm : first m <;> cases hn : first n <;> rw [hm, hn] at hfirst <;> cases hfirst
  · next flow _ _ hmid =>
    cases flow with
    | next => exact hnext _ _ hmid
    | returned value => exact .done hmid
  · next hmid => exact .failed hmid
  · exact .exhausted

/-- Both loops go round as often, as their conditions come to the same. -/
theorem Respects.rounds {condition : Run Bool} {round : Run Flow}
    (hcondition : condition.Respects R) (hround : round.Respects R) :
    ∀ left, (rounds condition round left).Respects R
  | 0 => fun _ _ _ => .exhausted
  | left + 1 => fun m n hmn => by
    have hfirst := hcondition m n hmn
    unfold Run.rounds
    cases hm : condition m <;> cases hn : condition n <;> rw [hm, hn] at hfirst <;> cases hfirst
    · next b _ _ hmid =>
      cases b with
      | true => exact hround.unlessReturned (Respects.rounds hcondition hround left) _ _ hmid
      | false => exact .done hmid
    · next hmid => exact .failed hmid
    · exact .exhausted

theorem Respects.forItems {round : Value → Run Flow} (hround : ∀ item, (round item).Respects R) :
    ∀ items, (forItems round items).Respects R
  | [] => respects_pure _
  | item :: items => (hround item).unlessReturned (Respects.forItems hround items)

end Run

/-! ## Expressions and statements -/

variable {host : Host} {caller : Caller}

/-- A caller whose calls end alike on related machines. -/
def Caller.Respects (R : Machine → Machine → Prop) (caller : Caller) : Prop :=
  ∀ name arguments position, (caller name arguments position).Respects R

namespace Expr

open Run

theorem evaluateBinary_respects {operator : Operator} {left : Value} {right : Run Value}
    (h : right.Respects R) (position : Position) :
    (evaluateBinary operator left right position).Respects R := by
  have htruth : (do
      let value ← right
      let b ← Run.ofExcept (value.truth position)
      return Value.boolean b : Run Value).Respects R :=
    h.bind fun value => (respects_ofExcept _).bind fun b => respects_pure _
  unfold evaluateBinary
  split
  · refine (respects_ofExcept _).bind fun b => ?_
    split
    · exact htruth
    · exact respects_pure _
  · refine (respects_ofExcept _).bind fun b => ?_
    split
    · exact respects_pure _
    · exact htruth
  · exact h.bind fun value => respects_ofExcept _

mutual

/-- Expressions only look at variables, call and print, and so come to the same value. -/
theorem evaluate_respects (hR : Lockstep R S) (hcaller : caller.Respects R) : ∀ e : Expr,
    (e.evaluate host caller).Respects R
  | literal .. => respects_pure _
  | group inner .. => evaluate_respects hR hcaller inner
  | binary _ left right _ _ =>
    (evaluate_respects hR hcaller left).bind fun _ =>
      evaluateBinary_respects (evaluate_respects hR hcaller right) _
  | name n _ span => respects_look fun h => hR.lookupVariable h n span.start
  | member receiver .. => (evaluate_respects hR hcaller receiver).bind fun _ => respects_ofExcept _
  | call _ arguments .. => (evaluateAll_respects hR hcaller arguments).bind fun _ => hcaller _ _ _
  | methodCall receiver _ arguments .. =>
    (evaluate_respects hR hcaller receiver).bind fun _ =>
      (evaluateAll_respects hR hcaller arguments).bind fun _ => respects_ofExcept _

theorem evaluateAll_respects (hR : Lockstep R S) (hcaller : caller.Respects R) : ∀ es : List Expr,
    (evaluateAll host caller es).Respects R
  | [] => respects_pure _
  | e :: es =>
    (evaluate_respects hR hcaller e).bind fun _ =>
      (evaluateAll_respects hR hcaller es).bind fun _ => respects_pure _

end

theorem evaluateTruth_respects (hR : Lockstep R S) (hcaller : caller.Respects R) (e : Expr) :
    (e.evaluateTruth host caller).Respects R :=
  (e.evaluate_respects hR hcaller).bind fun _ => respects_ofExcept _

theorem evaluateItems_respects (hR : Lockstep R S) (hcaller : caller.Respects R) (e : Expr) :
    (e.evaluateItems host caller).Respects R := by
  refine (e.evaluate_respects hR hcaller).bind fun value => ?_
  split
  · exact respects_pure _
  · exact respects_fail _ _

end Expr

/-- A value goes to a variable that both machines have in sight. -/
theorem Place.change_respects (hR : Lockstep R S) (place : Place)
    (f : Value → Except Diagnostic Value) : (place.change f).Respects R := by
  refine Run.respects_change fun {m n} h => ?_
  rw [hR.lookupVariable h]
  cases n.lookupVariable place.name place.position with
  | error d => exact .inl ⟨d, rfl, rfl⟩
  | ok value =>
    simp only [bind, Except.bind]
    cases Value.change f place.path value with
    | error d => exact .inl ⟨d, rfl, rfl⟩
    | ok changed => exact hR.assign h ..

theorem Expr.assign_respects (hR : Lockstep R S) (hcaller : caller.Respects R) (target e : Expr) :
    (target.assign host caller e).Respects R := by
  unfold assign
  split
  · exact (e.evaluate_respects hR hcaller).bind fun value =>
      Run.respects_change fun h => hR.assign h ..
  · refine (e.evaluate_respects hR hcaller).bind fun value => ?_
    split
    · exact Place.change_respects hR _ _
    · exact (Expr.evaluate_respects hR hcaller _).bind fun temporary =>
        (Run.respects_ofExcept _).bind fun _ => Run.respects_pure _
  · exact Run.respects_fail _ _

namespace Run

theorem value_respects (hR : Lockstep R S) (hcaller : caller.Respects R) (value : Option Expr) :
    (value.elim (Run.pure .nil) (Expr.evaluate host caller)).Respects R := by
  cases value with
  | none => exact respects_pure _
  | some e => exact e.evaluate_respects hR hcaller

theorem declare_respects (hR : Lockstep R S) (name : String) (value : Value) (position : Position) :
    (change (·.declare name value position)).Respects S :=
  respects_change fun h => hR.declare h ..

end Run

namespace Stmt

open Run

variable {fuel : Nat}

mutual

/-- Statements need the stronger relation, as they may declare. -/
theorem execute_respects (hS : Lockstep S S) (hcaller : caller.Respects S)
    (hstays : caller.Stays) : ∀ stmt : Stmt, (stmt.execute host caller fuel).Respects S
  | expression e _ => (e.evaluate_respects hS hcaller).bind fun _ => respects_pure _
  | declaration _ _ value _ _ =>
    (value_respects hS hcaller value).bind fun _ =>
      (declare_respects hS _ _ _).bind fun _ => respects_pure _
  | assignment target value _ =>
    (target.assign_respects hS hcaller value).bind fun _ => respects_pure _
  | conditional condition thenBody elseBody _ => by
    refine (condition.evaluateTruth_respects hS hcaller).bind fun b => ?_
    split
    · exact (executeAll_respects hS hcaller hstays thenBody).inBlock hS
        (executeAll_stays hstays thenBody)
    · exact (executeAll_respects hS hcaller hstays elseBody).inBlock hS
        (executeAll_stays hstays elseBody)
  | forEach _ items body _ =>
    (items.evaluateItems_respects hS hcaller).bind fun values =>
      Respects.forItems (fun _ => Respects.inBlock
        ((declare_respects hS _ _ _).bind fun _ => executeAll_respects hS hcaller hstays body)
        hS ((declare_stays _ _ _).bind fun _ => executeAll_stays hstays body)) values
  | whileLoop condition body _ =>
    (condition.evaluateTruth_respects hS hcaller).rounds
      ((executeAll_respects hS hcaller hstays body).inBlock hS (executeAll_stays hstays body))
      fuel
  | returns value _ => (value.evaluate_respects hS hcaller).bind fun _ => respects_pure _

theorem executeAll_respects (hS : Lockstep S S) (hcaller : caller.Respects S)
    (hstays : caller.Stays) :
    ∀ stmts : List Stmt, (executeAll host caller fuel stmts).Respects S
  | [] => respects_pure _
  | stmt :: stmts =>
    (execute_respects hS hcaller hstays stmt).unlessReturned
      (executeAll_respects hS hcaller hstays stmts)

end

end Stmt

/-! ## Calls -/

namespace Run

theorem print_respects (hR : Lockstep R S) (values : List Value) : (print values).Respects R :=
  fun m n h => by
    unfold print
    simp only [foldl_printLine]
    exact .done (hR.print h (lines values))

theorem declareParameters_respects (hS : Lockstep S S) (position : Position) :
    ∀ (parameters : List (String × String)) (values : List Value),
      (declareParameters position parameters values).Respects S
  | _ :: parameters, _ :: values =>
    (declare_respects hS _ _ _).bind fun _ =>
      declareParameters_respects hS position parameters values
  | [], _ => respects_pure _
  | _ :: _, [] => respects_pure _

/-- What a method does when it is called leaves all scopes but its own as they are. -/
theorem method_stays (host : Host) (fuel : Nat) (method : Method) (arguments : List Value) :
    (do
      declareParameters method.span.start method.parameters arguments
      Stmt.executeAll host (call host fuel) fuel method.body).Stays some none :=
  (declareParameters_stays _ _ _).bind fun _ => Stmt.executeAll_stays (call_stays host fuel) _

theorem method_respects (hS : Lockstep S S) {fuel : Nat}
    (hcalls : Caller.Respects S (call host fuel)) (method : Method) (arguments : List Value) :
    (do
      declareParameters method.span.start method.parameters arguments
      Stmt.executeAll host (call host fuel) fuel method.body).Respects S :=
  (declareParameters_respects hS _ _ _).bind fun _ =>
    Stmt.executeAll_respects hS hcalls (call_stays host fuel) _

/-- Calls end alike on related machines, however deep they are nested. -/
theorem call_respects (hS : Lockstep S S) (host : Host) :
    ∀ (fuel : Nat) {R : Machine → Machine → Prop}, Lockstep R S →
      Caller.Respects R (call host fuel)
  | 0, _, _, _, _, _ => fun _ _ _ => .exhausted
  | fuel + 1, R, hR, name, arguments, position => fun m n h => by
    rw [call]
    have hlook := respects_look
      (fun {m n} (h : R m n) => hR.lookupFunction h name arguments.length position) m n h
    refine hlook.bind (fun {callable m' n'} hlooked hmid => ?_) id
    obtain ⟨hfound, rfl⟩ := eq_of_look hlooked
    cases callable with
    | print => exact print_respects hR _ _ _ hmid
    | native answer => exact respects_ofExcept _ _ _ hmid
    | method method home =>
      -- methods are defined in the root
      obtain rfl := (hR.left h).home_eq hfound
      have hbody := method_respects hS (call_respects hS host fuel hS) method arguments _ _
        (hR.method hmid)
      have hcall := alike_inScope hbody (method_stays host fuel method arguments)
        (hR.left hmid).depth_pos (hR.right hmid).depth_pos (hR.leave hmid)
      exact hcall.bind (fun _ hlast => .done hlast) id

end Run

end TeachLang
