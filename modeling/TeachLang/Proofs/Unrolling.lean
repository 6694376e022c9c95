import TeachLang.Proofs.Fuel
import TeachLang.Proofs.Padding

/-!
# Loops unrolled

A loop comes to the same as its rounds written out: a `WHILE` loop as one round and the loop again,
if the condition holds, and a `FOR` loop over whole numbers as a block for each of them. The rounds
that are written out stand in more blocks than those of the loop, which makes no difference
(`Run.inBlock_eq`), and a `WHILE` loop needs more fuel for a round that it counts itself.

Programs are compared by all that they can come to, with any fuel. So one that goes on forever is
only the same as another that does.
-/

namespace TeachLang

variable {host : Host} {caller : Caller} {fuel : Nat}

/-- From a machine, two lists of statements come to the same: with the same flow or the same
diagnostic, and with the same definitions and the same text behind them, or neither ends. -/
def Indistinguishable (host : Host) (m : Machine) (stmts stmts' : List Stmt) : Prop :=
  ∀ outcome, outcome ≠ .exhausted →
    ((∃ fuel, Run.execute host fuel stmts m = outcome) ↔
      ∃ fuel, Run.execute host fuel stmts' m = outcome)

/-- `IF TRUE DO body END`, wherever it stands. -/
inductive Stmt.Block (body : List Stmt) : Stmt → Prop where
  /-- with any slot and any spans -/
  | mk (ty : Option Ty) (span span' : Span) :
    Block body (.conditional (.literal (.boolean true) ty span) body [] span')

/-- `IF TRUE DO LET name = k; body END`, wherever it stands. -/
inductive Stmt.BlockWith (name : String) (body : List Stmt) (k : Int) : Stmt → Prop where
  /-- with any type, any slots and any spans -/
  | mk {typeName : Option String} {ty : Option Ty} {binding : Option Variable} {span span' : Span}
    {block : Stmt} :
    Block (.declaration name typeName (some (.literal (.integer k) ty span)) binding span' :: body)
      block → BlockWith name body k block

namespace Run

/-- Rounds for items in their order, so many of them, until one returns or fails or there is none
left. -/
inductive Passes (round : Value → Run Flow) :
    List Value → Machine → Nat → Outcome Flow → Prop where
  /-- there is none left -/
  | finished (m : Machine) : Passes round [] m 0 (.done .next m)
  /-- a round, and those behind it -/
  | round {item : Value} {items : List Value} {m mid : Machine} {count : Nat}
    {outcome : Outcome Flow} : round item m = .done .next mid →
    Passes round items mid count outcome → Passes round (item :: items) m (count + 1) outcome
  /-- a round that returns -/
  | returned {item : Value} {items : List Value} {m last : Machine} {value : Value} :
    round item m = .done (.returned value) last →
    Passes round (item :: items) m 1 (.done (.returned value) last)
  /-- a round that fails -/
  | failed {item : Value} {items : List Value} {m last : Machine} {d : Diagnostic} :
    round item m = .failed d last → Passes round (item :: items) m 1 (.failed d last)

/-- If nothing stops the rounds there is one for each item. -/
theorem Passes.count_eq {round : Value → Run Flow} {items : List Value} {m last : Machine}
    {count : Nat} (h : Passes round items m count (.done .next last)) : count = items.length := by
  generalize hend : Outcome.done Flow.next last = outcome at h
  induction h with
  | finished => rfl
  | round _ _ ih => rw [ih hend, List.length_cons]
  | returned => cases hend
  | failed => cases hend

theorem exists_passes_of_forItems {round : Value → Run Flow} :
    ∀ {items : List Value} {m : Machine},
      forItems round items m ≠ .exhausted →
        ∃ count, Passes round items m count (forItems round items m)
  | [], m, _ => ⟨0, .finished m⟩
  | item :: items, m, h => by
    rw [forItems, unlessReturned] at h ⊢
    cases hround : round item m with
    | done flow mid =>
      rw [hround] at h
      cases flow with
      | next =>
        obtain ⟨count, hpasses⟩ := exists_passes_of_forItems h
        exact ⟨count + 1, .round hround hpasses⟩
      | returned value => exact ⟨1, .returned hround⟩
    | failed d last => exact ⟨1, .failed hround⟩
    | exhausted =>
      rw [hround] at h
      exact absurd rfl h

/-! ## Flows -/

/-- Behind a run there may be nothing to do. -/
theorem unlessReturned_pure (r : Run Flow) : r.unlessReturned (Run.pure .next) = r := by
  funext m
  rw [unlessReturned]
  cases r m with
  | done flow mid => cases flow <;> rfl
  | failed d mid => rfl
  | exhausted => rfl

end Run

namespace Stmt

open Run

theorem executeAll_singleton (stmt : Stmt) :
    executeAll host caller fuel [stmt] = stmt.execute host caller fuel :=
  unlessReturned_pure _

/-- A block runs its statements in a scope of their own. -/
theorem Block.execute_eq {body : List Stmt} {block : Stmt} (h : Block body block) :
    block.execute host caller fuel = inBlock (executeAll host caller fuel body) := by
  cases h
  rfl

end Stmt

/-- In a new scope every name can be declared, so it does not matter where. -/
theorem Machine.declare_enter (m : Machine) (p : Nat) (name : String) (value : Value)
    (position position' : Position) :
    (m.enter p).declare name value position = (m.enter p).declare name value position' := by
  have hnone : (m.enter p).scopes.variableIn? name (m.enter p).scope = none := by
    have hfresh : (m.enter p).scopes.get? (m.enter p).scope = some (.empty (some p)) :=
      (m.scopes.get?_child p m.depth).trans (if_pos rfl)
    rw [Scopes.variableIn?_eq, Scopes.bindings_eq hfresh]
    rfl
  rw [declare, changeScopes, Scopes.defineVariable_eq hnone, declare, changeScopes,
    Scopes.defineVariable_eq hnone]

namespace Stmt

open Run

/-- A block that declares a number does the same as a round for it. -/
theorem BlockWith.execute_eq {name : String} {body : List Stmt} {k : Int} {block : Stmt}
    (h : BlockWith name body k block) (position : Position) :
    block.execute host caller fuel = inBlock (do
      Run.change (·.declare name (.integer k) position)
      executeAll host caller fuel body) := by
  cases h with
  | @mk typeName ty binding span span' _ hblock =>
    rw [hblock.execute_eq]
    funext m
    change inScope m.scope _ m = inScope m.scope _ m
    -- both declare the number first, where it cannot fail
    have hdeclare := m.declare_enter m.scope name (.integer k) span'.start position
    have hinner : executeAll host caller fuel
        (.declaration name typeName (some (.literal (.integer k) ty span)) binding span' :: body)
          (m.enter m.scope) =
        (do Run.change (·.declare name (.integer k) position)
            executeAll host caller fuel body : Run Flow) (m.enter m.scope) := by
      change Run.unlessReturned (Run.bind (Run.pure (Value.integer k)) fun value => Run.bind
        (Run.change (·.declare name value span'.start)) fun _ => Run.pure .next) _ _ =
        Run.bind (Run.change _) _ _
      simp only [unlessReturned, Run.bind, Run.pure, Run.change, hdeclare]
      cases (m.enter m.scope).declare name (.integer k) position <;> rfl
    simp only [inScope, hinner]

/-- Blocks for numbers do the same as the rounds for them. -/
theorem executeAll_blocks {name : String} {body : List Stmt} (position : Position) {ks : List Int}
    {blocks : List Stmt} (h : List.Forall₂ (BlockWith name body) ks blocks) :
    executeAll host caller fuel blocks = forItems (fun item => inBlock (do
      Run.change (·.declare name item position)
      executeAll host caller fuel body)) (ks.map Value.integer) := by
  induction h with
  | nil => rfl
  | cons hblock _ ih =>
    rw [executeAll, ih, hblock.execute_eq position]
    rfl

/-! ## The two loops -/

section While

variable {condition : Expr} {body : List Stmt} {block : Stmt} {m : Machine}

/-- The rounds of a loop on its own and inside another block. -/
theorem inBlock_while (host : Host) (fuel left : Nat) (hm : m.Sound) :
    let caller := call host fuel
    let round := inBlock (executeAll host caller fuel body)
    let loop := round.unlessReturned (rounds (condition.evaluateTruth host caller) round left)
    inBlock loop m = loop m := by
  intro caller round loop
  have hcaller := call_stays host fuel
  have hround : round.Stays (fun _ => none) none := (executeAll_stays hcaller body).inBlock
  refine inBlock_eq (fun pad around => ?_)
    (hround.unlessReturned ((condition.evaluateTruth_stays hcaller).rounds hround left)) hm
  have hR := padded_lockstep pad around False
  have hS := padded_lockstep pad around True
  have hround' : round.Respects (Padded pad around False) :=
    (executeAll_respects hS (call_respects hS host fuel hS) hcaller body).inBlock hR
      (executeAll_stays hcaller body)
  exact hround'.unlessReturned
    ((condition.evaluateTruth_respects hR (call_respects hS host fuel hR)).rounds hround' left)

/-- One round written out takes the place of one unit of fuel. -/
theorem execute_unrolled (hblock : Block body block) (hm : m.Sound) (fuel : Nat)
    (span span' : Span) :
    Run.execute host fuel [.conditional condition [block, .whileLoop condition body span'] [] span]
        m =
      rounds (condition.evaluateTruth host (call host fuel))
        (inBlock (Run.execute host fuel body)) (fuel + 1) m := by
  have hcaller := call_stays host fuel
  have hthen : executeAll host (call host fuel) fuel [block, .whileLoop condition body span'] =
      (inBlock (Run.execute host fuel body)).unlessReturned
        (rounds (condition.evaluateTruth host (call host fuel))
          (inBlock (Run.execute host fuel body)) fuel) := by
    rw [executeAll, executeAll_singleton, hblock.execute_eq]
    rfl
  rw [Run.execute, executeAll_singleton, execute, rounds, hthen]
  change Run.bind _ _ m = _
  unfold Run.bind
  cases hc : condition.evaluateTruth host (call host fuel) m with
  | done b mid =>
    have hmid : mid.Sound := hm.of_keeps
      (((condition.evaluateTruth_stays hcaller) m hm.depth_pos).of_done hc) (.inl rfl)
    simp only [hc]
    cases b with
    | true => exact inBlock_while host fuel fuel hmid
    -- there is nothing to do in the block
    | false => exact inBlock_eq (fun _ _ => respects_pure _) (stays_pure _) hmid
  | failed d mid => simp only [hc]
  | exhausted => simp only [hc]

theorem while_indistinguishable (hblock : Block body block) (hm : m.Sound)
    (span span' span'' : Span) :
    Indistinguishable host m [.whileLoop condition body span]
      [.conditional condition [block, .whileLoop condition body span'] [] span''] := by
  have hloop : ∀ fuel, Run.execute host fuel [.whileLoop condition body span] =
      rounds (condition.evaluateTruth host (call host fuel))
        (inBlock (Run.execute host fuel body)) fuel :=
    fun fuel => executeAll_singleton _
  have hwithin : ∀ {fuel fuel' left left' : Nat}, fuel ≤ fuel' → left ≤ left' →
      (rounds (condition.evaluateTruth host (call host fuel))
        (inBlock (Run.execute host fuel body)) left).Within
      (rounds (condition.evaluateTruth host (call host fuel'))
        (inBlock (Run.execute host fuel' body)) left') := fun hfuel hleft =>
    (condition.evaluateTruth_within (call_within host hfuel)).rounds
      (Run.execute_within host hfuel body).inBlock hleft
  intro outcome hends
  constructor
  · rintro ⟨fuel, rfl⟩
    refine ⟨fuel, ?_⟩
    rw [execute_unrolled hblock hm, hloop] at *
    exact hwithin (Nat.le_refl fuel) (Nat.le_succ fuel) m hends
  · rintro ⟨fuel, rfl⟩
    refine ⟨fuel + 1, ?_⟩
    rw [execute_unrolled hblock hm] at hends ⊢
    rw [hloop]
    exact hwithin (Nat.le_succ fuel) (Nat.le_refl _) m hends

end While

section For

variable {name : String} {e : Expr} {body : List Stmt} {m mid : Machine} {ty : Ty}
  {values : List Value}

/-- A loop over what it finds at its entry. -/
theorem execute_forEach (he : Run.evaluate host fuel e m = .done (.iterable ty values) mid)
    (span : Span) :
    Run.execute host fuel [.forEach name e body span] m =
      (Work.items name values body span.start).run host fuel mid := by
  rw [Run.execute, executeAll_singleton, execute]
  change Run.bind (Run.bind (Run.evaluate host fuel e) _) _ m = _
  simp only [Run.bind, he]
  rfl

/-- An expression evaluated once, and what comes behind it. -/
theorem execute_expression {value : Value} (he : Run.evaluate host fuel e m = .done value mid)
    (span : Span) (stmts : List Stmt) :
    Run.execute host fuel (.expression e span :: stmts) m = Run.execute host fuel stmts mid := by
  rw [Run.execute, executeAll, execute]
  change Run.unlessReturned (Run.bind (Run.evaluate host fuel e) _) _ m = _
  simp only [unlessReturned, Run.bind, he]
  rfl

/-- With any fuel an expression has the same value, if it has one. -/
theorem evaluate_eq {value : Value} (he : Run.evaluate host fuel e m = .done value mid)
    {fuel' : Nat} (hfuel : Run.evaluate host fuel' e m ≠ .exhausted) :
    Run.evaluate host fuel' e m = .done value mid := by
  have hends : Run.evaluate host fuel e m ≠ .exhausted := he ▸ nofun
  exact ((Work.evaluate e).run_unique host hfuel hends).trans he

/-- Without fuel for the expression neither a loop over it ends nor what comes behind it. -/
theorem execute_exhausted (he : Run.evaluate host fuel e m = .exhausted) (span span' : Span)
    (stmts : List Stmt) : Run.execute host fuel [.forEach name e body span] m = .exhausted ∧
      Run.execute host fuel (.expression e span' :: stmts) m = .exhausted := by
  rw [Run.execute, executeAll_singleton, execute, Run.execute, executeAll, execute]
  change Run.bind (Run.bind (Run.evaluate host fuel e) _) _ m = _ ∧
    Run.unlessReturned (Run.bind (Run.evaluate host fuel e) _) _ m = _
  simp only [unlessReturned, Run.bind, he, and_self]

/-- With any fuel a loop over numbers and the blocks for them come to the same. -/
theorem forEach_eq_blocks {ks : List Int} {blocks : List Stmt}
    (he : Run.evaluate host fuel e m = .done (.iterable ty (ks.map Value.integer)) mid)
    (hblocks : List.Forall₂ (BlockWith name body) ks blocks) (fuel' : Nat) (span span' : Span) :
    Run.execute host fuel' [.forEach name e body span] m =
      Run.execute host fuel' (.expression e span' :: blocks) m := by
  by_cases hfuel : Run.evaluate host fuel' e m = .exhausted
  · obtain ⟨hloop, hrest⟩ : Run.execute host fuel' [.forEach name e body span] m = .exhausted ∧
        Run.execute host fuel' (.expression e span' :: blocks) m = .exhausted :=
      execute_exhausted hfuel span span' blocks
    rw [hloop, hrest]
  · have hfound := evaluate_eq he hfuel
    rw [execute_forEach hfound, execute_expression hfound]
    exact congrFun (executeAll_blocks span.start hblocks).symm mid

end For

end Stmt

/-- Wherever a program may stand, its loops come to the same as their rounds written out: a `WHILE`
loop as one round and the loop again if the condition holds, and a `FOR` loop over whole numbers as
a block for each of them behind the expression that it runs over. That loop has one round for each
item that there is at its entry, unless one of them returns or fails. -/
theorem Machine.Reachable.loops_unroll {m : Machine} (hm : m.Reachable host) :
    (∀ {condition : Expr} {body : List Stmt} {block : Stmt} (span span' span'' : Span),
      Stmt.Block body block →
        Indistinguishable host m [.whileLoop condition body span]
          [.conditional condition [block, .whileLoop condition body span'] [] span'']) ∧
    ∀ {e : Expr} {fuel : Nat} {ty : Ty} {values : List Value} {mid : Machine},
      Run.evaluate host fuel e m = .done (.iterable ty values) mid →
        ∀ (name : String) (body : List Stmt) (span : Span),
          (∀ {ks : List Int} {blocks : List Stmt} (span' : Span), values = ks.map Value.integer →
            List.Forall₂ (Stmt.BlockWith name body) ks blocks →
              Indistinguishable host m [.forEach name e body span]
                (.expression e span' :: blocks)) ∧
          ∀ fuel' outcome, outcome ≠ .exhausted →
            Run.execute host fuel' [.forEach name e body span] m = outcome →
              ∃ count, Run.Passes
                  (fun item => Run.inBlock ((Work.round name item body span.start).run host fuel'))
                  values mid count outcome ∧
                ∀ last, outcome = .done .next last → count = values.length := by
  refine ⟨fun span span' span'' hblock =>
    Stmt.while_indistinguishable hblock hm.sound span span' span'', ?_⟩
  intro e fuel ty values mid he name body span
  refine ⟨?_, ?_⟩
  · rintro ks blocks span' rfl hblocks outcome -
    have heq := fun fuel' => Stmt.forEach_eq_blocks he hblocks fuel' span span'
    simp only [heq]
  · rintro fuel' outcome hends rfl
    have hfound := Stmt.evaluate_eq he fun hfuel =>
      hends (Stmt.execute_exhausted hfuel span span []).1
    rw [Stmt.execute_forEach hfound] at hends ⊢
    obtain ⟨count, hpasses⟩ := Run.exists_passes_of_forItems hends
    refine ⟨count, hpasses, fun last hlast => ?_⟩
    rw [Work.run] at hlast
    rw [hlast] at hpasses
    exact hpasses.count_eq

namespace Stmt

/-- Prints `n`, and changes it and what the loop runs over. -/
def changing : List Stmt :=
  [.expression (.call Signature.print.name [.name "n" none default] none default) default,
    .assignment (.name "n" none default) (.literal (.integer 7) none default) default,
    .assignment (.name "numbers" none default) (.literal .nil none default) default]

/-- The round of a loop for a number, written out. -/
def changingBlock (k : Int) : Stmt :=
  .conditional (.literal (.boolean true) none default)
    (.declaration "n" none (some (.literal (.integer k) none default)) none default :: changing) []
    default

/-- A condition that always holds. -/
def always : Expr := .literal (.boolean true) none default

/-- Leaves a loop at once. -/
def leaving : Stmt := .returns (.literal (.integer 3) none default) default

end Stmt

/-- A machine with numbers to run over. -/
def Machine.counting : Machine :=
  ⟨⟨#[.ofLists none [("numbers", .integers [1, 2])]
    [((Signature.print.name, Signature.print.arity), .print)]]⟩, Scopes.root, .empty⟩

theorem Machine.changing_unrolls :
    (∃ fuel last, Run.execute (fun _ value _ => .ok value) fuel
        [.expression (.name "numbers" none default) default, Stmt.changingBlock 1,
          Stmt.changingBlock 2] counting = .done .next last ∧ last.printed = "1\n2\n") ∧
      ∃ fuel, Run.execute (fun _ value _ => .ok value) fuel
        [.conditional Stmt.always [.conditional Stmt.always [Stmt.leaving] [] default,
          .whileLoop Stmt.always [Stmt.leaving] default] [] default] counting =
        .done (.returned (.integer 3)) counting := by
  have hcounting : counting.Reachable (fun _ value _ => .ok value) := .given (.start .empty) rfl
  obtain ⟨hwhile, hfor⟩ := hcounting.loops_unroll
  constructor
  · obtain ⟨last, hlast, hprinted⟩ : ∃ last, Run.execute (fun _ value _ => .ok value) 1
        [.forEach "n" (.name "numbers" none default) Stmt.changing default] counting =
          .done .next last ∧ last.printed = "1\n2\n" := ⟨_, rfl, rfl⟩
    have hblocks : List.Forall₂ (Stmt.BlockWith "n" Stmt.changing) [1, 2]
        [Stmt.changingBlock 1, Stmt.changingBlock 2] :=
      .cons (.mk (.mk ..)) (.cons (.mk (.mk ..)) .nil)
    have hitems : Run.evaluate (fun _ value _ => .ok value) 0 (.name "numbers" none default)
        counting = .done (.integers [1, 2]) counting := rfl
    have hsame := (hfor hitems "n" Stmt.changing default).1 default rfl hblocks
    obtain ⟨fuel, hfuel⟩ := (hsame (.done .next last) nofun).mp ⟨1, hlast⟩
    exact ⟨fuel, last, hfuel, hprinted⟩
  · have hsame : Indistinguishable _ counting [.whileLoop Stmt.always [Stmt.leaving] default] _ :=
      hwhile default default default (.mk none default default)
    have hleft : Run.execute (fun _ value _ => .ok value) 1
        [.whileLoop Stmt.always [Stmt.leaving] default] counting =
          .done (.returned (.integer 3)) counting := rfl
    exact (hsame (.done (.returned (.integer 3)) counting) nofun).mp ⟨1, hleft⟩

end TeachLang
