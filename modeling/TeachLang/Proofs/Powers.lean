import TeachLang.Proofs.Faithful

/-!
# Powers compose

What is read at a weak power is what is read at a strong one, and then the weaker operators behind
it: reading at one power and going on at another is reading at the weaker of the two
(`Cursor.expr_eq_goOn`). This is so whether reading comes to an end or fails, as the loop over
operators has nothing but its left operand in hand.

`Expr.Binds` says how what is read at a power is grouped, and `Cursor.expr_binds` that this holds of
whatever is read. It asks nothing of the tokens, other than what `Proofs/Faithful` says of the trees
that are read from well-formed ones.
-/

namespace TeachLang

/-! ## How expressions are grouped -/

namespace Expr

/-- The powers of the operators in an expression that are in no parentheses, the dots before members
included. -/
def outerPowers : Expr → List Power
  | binary operator left right _ _ => operator.power :: (left.outerPowers ++ right.outerPowers)
  | member receiver _ _ _ => .member :: receiver.outerPowers
  | methodCall receiver _ _ _ _ => .member :: receiver.outerPowers
  | literal .. | group .. | name .. | call .. => []

mutual

/-- Whether operators are as tight as they have to be to stand on the right of another, wherever
they are. -/
def Ranked : Expr → Prop
  | literal .. | name .. => True
  | group inner _ _ => inner.Ranked
  | binary operator left right _ _ =>
    left.Ranked ∧ right.Ranked ∧ ∀ power ∈ right.outerPowers, operator.power < power
  | member receiver _ _ _ => receiver.Ranked
  | call _ arguments _ _ => AllRanked arguments
  | methodCall receiver _ arguments _ _ => receiver.Ranked ∧ AllRanked arguments

/-- Whether this is so in all expressions of a list. -/
def AllRanked : List Expr → Prop
  | [] => True
  | first :: others => first.Ranked ∧ AllRanked others

end

/-- How an expression is grouped that was read at a power. -/
structure Binds (p : Power) (e : Expr) : Prop where
  /-- all operators in no parentheses are tighter -/
  outer : ∀ power ∈ e.outerPowers, p < power
  /-- what stands on the right of an operator is tighter than that operator -/
  ranked : e.Ranked

/-- What is no operator binds as tight as anything. -/
theorem Binds.of_operand {p : Power} {e : Expr} (hpowers : e.outerPowers = []) (h : e.Ranked) :
    e.Binds p :=
  ⟨by simp [hpowers], h⟩

end Expr

theorem Power.lt_trans {p q r : Power} (h : p < q) (h' : q < r) : p < r := Nat.lt_trans h h'

theorem Power.lt_of_not_lt_of_lt {p q r : Power} (h : ¬ q < p) (h' : q < r) : p < r :=
  Nat.lt_of_le_of_lt (Nat.le_of_not_lt h) h'

namespace Cursor

/-! ## Reading at one power and going on at another -/

variable {n k : Nat}

/-- Goes on behind what was read with the operators that bind more tightly than the given power. -/
def goOn (p : Power) (result : Except Failure (Read n Expr)) : Except Failure (Read n Expr) := do
  let ⟨left, next, h⟩ ← result
  let ⟨whole, next, h⟩ := (← operators p left next).orAfter h
  return ⟨whole, next, h⟩

/-- What was read, where it might have been nothing. -/
def loosened (result : Except Failure (Read n Expr)) : Except Failure (Read (n + 1) Expr) :=
  result.map .loose

/-- An expression at a power is an operand, gone on with. -/
theorem expr_eq (p : Power) (c : Cursor) : expr p c = goOn p (operand c) := by
  rw [expr]
  rfl

theorem goOn_ok (p : Power) (read : Read n Expr) :
    goOn p (.ok read) = (operators p read.value read.next).map (·.orAfter read.shorter) := by
  change (operators p read.value read.next >>= _) = _
  cases operators p read.value read.next <;> rfl

theorem loosened_goOn (p : Power) (first : Except Failure (Read n Expr)) :
    loosened (goOn p first) = do
      let ⟨left, next, h⟩ ← first
      let ⟨whole, next, h⟩ := (← operators p left next).orAfter h
      return .loose ⟨whole, next, h⟩ := by
  cases first with
  | error failure => rfl
  | ok read =>
    rw [goOn_ok]
    change _ = (operators p read.value read.next >>= _)
    cases operators p read.value read.next <;> rfl

/-- How many tokens are known to be left makes no difference to going on. -/
theorem goOn_loosened (p : Power) (result : Except Failure (Read n Expr)) :
    goOn p (loosened result) = loosened (goOn p result) := by
  cases result with
  | error failure => rfl
  | ok read =>
    rw [goOn_ok, loosened, Except.map, goOn_ok]
    change (operators p read.value read.next).map _ = _
    cases operators p read.value read.next <;> rfl

/-- Going on twice is going on at the weak power, if it is so behind what was read. -/
theorem goOn_goOn {p q : Power} (result : Except Failure (Read n Expr))
    (h : ∀ read, result = .ok read →
      operators p read.value read.next = goOn p (operators q read.value read.next)) :
    goOn p (goOn q result) = goOn p result := by
  cases result with
  | error failure => rfl
  | ok read =>
    rw [goOn_ok, goOn_ok, h read rfl]
    cases operators q read.value read.next with
    | error failure => rfl
    | ok whole =>
      rw [Except.map, goOn_ok, goOn_ok]
      change (operators p whole.value whole.next).map _ = _
      cases operators p whole.value whole.next <;> rfl

/-- The loop over operators takes the same first step at all powers at which it takes one. -/
theorem exists_operators_eq (left : Expr) (c : Cursor) :
    ∃ first : Except Failure (Read c.remaining Expr),
      ∀ p, p < c.kind.power → operators p left c = loosened (goOn p first) := by
  by_cases hdot : c.kind = .dot
  · refine ⟨member left c, fun p hp => ?_⟩
    rw [operators, if_pos hp, if_pos hdot, loosened_goOn]
  · by_cases hoperator : (Operator.ofKind? c.kind).isSome = true
    · refine ⟨binary c.kind.power left c, fun p hp => ?_⟩
      rw [operators, if_pos hp, if_neg hdot, if_pos hoperator, loosened_goOn]
    · refine ⟨c.fail c.unexpected, fun p hp => ?_⟩
      rw [operators, if_pos hp, if_neg hdot, if_neg hoperator]
      rfl

/-- A token that does not bind tighter than the power ends the expression. -/
theorem operators_of_not_lt {p : Power} {c : Cursor} (h : ¬ p < c.kind.power) (left : Expr) :
    operators p left c = .ok (.nothing left c) := by
  rw [operators, if_neg h]
  rfl

/-- The loop at a strong power and then at a weak one is the loop at the weak one. -/
theorem operators_eq_goOn {p q : Power} (hpq : ¬ q < p) (left : Expr) (c : Cursor) :
    operators p left c = goOn p (operators q left c) := by
  by_cases hq : q < c.kind.power
  · obtain ⟨first, hfirst⟩ := exists_operators_eq left c
    rw [hfirst p (Power.lt_of_not_lt_of_lt hpq hq), hfirst q hq, goOn_loosened]
    exact congrArg loosened
      (goOn_goOn first fun read _ => operators_eq_goOn hpq read.value read.next).symm
  · -- the strong loop takes nothing, so that only the weak one is left
    rw [operators_of_not_lt hq, goOn_ok]
    change operators p left c = (operators p left c).map _
    cases operators p left c <;> rfl
termination_by c.remaining
decreasing_by exact read.shorter

/-- Reading at a strong power and going on at a weak one is reading at the weak one. -/
theorem expr_eq_goOn {p q : Power} (hpq : ¬ q < p) (c : Cursor) :
    expr p c = goOn p (expr q c) := by
  rw [expr_eq, expr_eq]
  exact (goOn_goOn _ fun read _ => operators_eq_goOn hpq read.value read.next).symm

/-! ## How what was read is grouped -/

/-- A constant has no operators. -/
theorem literal_binds (p : Power) (c : Cursor) : Finds c.literal fun e _ => e.Binds p := by
  rw [literal]
  split
  · exact .fail _
  · split
    · rintro _ ⟨⟩
      exact .of_operand rfl trivial
    · exact .fail _

mutual

/-- What is read at a power has tighter operators alone, and is not followed by any. -/
theorem expr_binds (p : Power) (c : Cursor) :
    Finds (expr p c) fun e next => e.Binds p ∧ ¬ p < next.kind.power := by
  rw [expr]
  refine (operand_binds p c).bind fun left next shorter hleft => ?_
  exact (operators_binds p left next hleft).bind fun whole last shorter hwhole => .pure hwhole
termination_by 2 * c.remaining + 1

theorem operand_binds (p : Power) (c : Cursor) : Finds (operand c) fun e _ => e.Binds p := by
  rw [operand]
  split
  · exact .fail _
  · next token next shorter htake =>
    split
    · split
      · refine (arguments_ranked next).bind fun es last shorter' hes => ?_
        exact .pure (.of_operand rfl hes)
      · exact .pure (.of_operand rfl trivial)
    · refine (expr_binds .default next).bind fun inner mid shorter' hinner => ?_
      refine (finds_expectOr mid .closeParen _).bind fun _ last _ _ => ?_
      exact .pure (.of_operand rfl hinner.1.ranked)
    · split
      · exact literal_binds p c
      · exact .fail _
termination_by 2 * c.remaining

theorem operators_binds (p : Power) (left : Expr) (c : Cursor) (hleft : left.Binds p) :
    Finds (operators p left c) fun e next => e.Binds p ∧ ¬ p < next.kind.power := by
  rw [operators]
  split
  · next hp =>
    split
    · next hdot =>
      refine (member_binds p left c hleft (hdot ▸ hp)).bind fun left' next shorter hleft' => ?_
      exact (operators_binds p left' next hleft').bind fun whole last shorter hwhole => .pure hwhole
    · split
      · refine (binary_binds p left c hleft hp).bind fun left' next shorter hleft' => ?_
        exact (operators_binds p left' next hleft').bind fun whole last shorter hwhole =>
          .pure hwhole
      · exact .fail _
  · next hp => exact .pure ⟨hleft, hp⟩
termination_by 2 * c.remaining + 1

/-- The right operand is read at the power of the operator, so it holds nothing looser. -/
theorem binary_binds (p : Power) (left : Expr) (c : Cursor) (hleft : left.Binds p)
    (hp : p < c.kind.power) : Finds (binary c.kind.power left c) fun e _ => e.Binds p := by
  rw [binary]
  split
  · exact .fail _
  · next token next shorter htake =>
    split
    · exact .fail _
    · next operator hoperator =>
      have hpower : c.kind.power = operator.power := by
        rw [kind_of_ahead (ahead_of_take? htake), Operator.power,
          Operator.kind_of_ofKind? hoperator]
      refine (expr_binds c.kind.power next).bind fun right last shorter' hright => ?_
      rw [hpower] at hp hright
      -- what is tighter than the operator is tighter than the power at which the whole is read
      refine .pure ⟨?_, hleft.ranked, hright.1.ranked, hright.1.outer⟩
      refine List.forall_mem_cons.mpr ⟨hp, List.forall_mem_append.mpr ⟨hleft.outer, ?_⟩⟩
      exact fun power hpower => Power.lt_trans hp (hright.1.outer power hpower)
termination_by 2 * c.remaining

theorem member_binds (p : Power) (receiver : Expr) (c : Cursor) (hreceiver : receiver.Binds p)
    (hp : p < Kind.dot.power) : Finds (member receiver c) fun e _ => e.Binds p := by
  have houter : ∀ power ∈ Power.member :: receiver.outerPowers, p < power :=
    List.forall_mem_cons.mpr ⟨hp, hreceiver.outer⟩
  rw [member]
  split
  · exact .fail _
  · next token next shorter htake =>
    refine (finds_expectOr next .identifier _).bind fun name mid shorter' _ => ?_
    change Finds (if mid.kind = .openParen then _ else _) _
    split
    · refine (arguments_ranked mid).bind fun es last shorter'' hes => ?_
      exact .pure ⟨houter, hreceiver.ranked, hes⟩
    · exact .pure ⟨houter, hreceiver.ranked⟩
termination_by 2 * c.remaining

/-- Every argument is read anew, at the loosest power. -/
theorem arguments_ranked (c : Cursor) : Finds (arguments c) fun es _ => Expr.AllRanked es := by
  rw [arguments]
  refine (finds_expectOr c .openParen _).bind fun _ next shorter _ => ?_
  change Finds (if next.kind = .closeParen then _ else _) _
  split
  · refine (finds_expectOr next .closeParen _).bind fun _ last _ _ => ?_
    exact .pure trivial
  · refine (expr_binds .default next).bind fun first mid shorter' hfirst => ?_
    refine (moreArguments_ranked mid).bind fun others late shorter'' hothers => ?_
    refine (finds_expectOr late .closeParen _).bind fun _ last _ _ => ?_
    exact .pure ⟨hfirst.1.ranked, hothers⟩
termination_by 2 * c.remaining

theorem moreArguments_ranked (c : Cursor) :
    Finds (moreArguments c) fun es _ => Expr.AllRanked es := by
  rw [moreArguments]
  split
  · refine (finds_expectOr c .comma _).bind fun _ next shorter _ => ?_
    refine (expr_binds .default next).bind fun first mid shorter' hfirst => ?_
    refine (moreArguments_ranked mid).bind fun others last shorter'' hothers => ?_
    exact .pure ⟨hfirst.1.ranked, hothers⟩
  · exact .pure trivial
termination_by 2 * c.remaining

end

/-- **Powers compose.** To read at a power is to read at a stronger one and to go on from there with
the operators that the first one asks for: the same is read up to the same place, or reading stops
in the same place for the same reason. What is read at a power is grouped by powers, and the token
behind it binds no more tightly than this power. -/
theorem expr_composes {p q : Power} (hpq : ¬ q < p) (c : Cursor) :
    expr p c = (do
      let ⟨left, next, h⟩ ← expr q c
      let ⟨whole, next, h⟩ := (← operators p left next).orAfter h
      return ⟨whole, next, h⟩) ∧
    ∀ read, expr p c = .ok read → read.value.Binds p ∧ ¬ p < read.next.kind.power :=
  ⟨expr_eq_goOn hpq c, expr_binds p c⟩

/-- The condition `a - b.x * c == d` with the word behind it. -/
def comparing : Cursor :=
  .ofTokens [⟨.identifier, "a", default⟩, ⟨.dash, "-", default⟩, ⟨.identifier, "b", default⟩,
    ⟨.dot, ".", default⟩, ⟨.identifier, "x", default⟩, ⟨.star, "*", default⟩,
    ⟨.identifier, "c", default⟩, ⟨.equals, "==", default⟩, ⟨.identifier, "d", default⟩,
    ⟨.doWord, "DO", default⟩] "shell"

theorem comparing_composes : ¬ Power.additive < Power.default ∧
    ((expr .additive comparing).toOption.map fun read => read.value.outerPowers) = some [] ∧
    ((expr .default comparing).toOption.map fun read => read.value.outerPowers) =
      some [.relational, .additive, .multiplicative, .member] ∧
    expr .default comparing = (do
      let ⟨left, next, h⟩ ← expr .additive comparing
      let ⟨whole, next, h⟩ := (← operators .default left next).orAfter h
      return ⟨whole, next, h⟩) ∧
    ∀ read, expr .default comparing = .ok read →
      read.value.Binds .default ∧ ¬ Power.default < read.next.kind.power := by
  have hpq : ¬ Power.additive < Power.default := by decide
  exact ⟨hpq, by decide +kernel, by decide +kernel, expr_composes hpq comparing⟩

end Cursor

end TeachLang
