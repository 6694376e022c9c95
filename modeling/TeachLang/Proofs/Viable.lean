import TeachLang.Proofs.Completions

/-!
# Faults stand where a text stops being viable

Reading a program goes the way of the recognizer with one token in front: whatever is read takes off
the stack what was expected, and a failure is where the recognizer is stuck, with the same fault
(`Cursor.Follows`). So reading never stops at a token with which it could have gone on, and never
looks behind the token that it stops at.
-/

namespace TeachLang

open Predictive

namespace Cursor

/-- The tokens from the place on. -/
def upcoming (c : Cursor) : List Token := c.ahead ++ [c.closing]

/-- Reading goes the way of the recognizer from a state on: what is read leads to where a stack is
still expected, and a failure is one of the recognizer. -/
def Follows {α : Type} {n : Nat} (result : Except Failure (Read n α)) (s : State)
    (after : List Item) : Prop :=
  match result with
  | .ok read => Reaches s (after, read.next.upcoming)
  | .error failure => Fails s failure.diagnostic

variable {α β : Type} {n k : Nat} {c next : Cursor} {s : State} {p : Part} {kind : Kind}
  {stack between after items : List Item} {message : Option String}

theorem upcoming_eq (c : Cursor) : ∃ rest, c.upcoming = c.current :: rest := by
  rw [upcoming, current]
  cases c.ahead with
  | nil => exact ⟨[], rfl⟩
  | cons token tokens => exact ⟨tokens ++ [c.closing], rfl⟩

/-- A token is taken off the tokens to come, unless it is the end. -/
theorem take?_follows (c : Cursor) :
    (c.take? = none ∧ c.kind = .eof) ∨
      ∃ token next shorter, c.take? = some ⟨token, next, shorter⟩ ∧ c.current = token ∧
        c.upcoming = token :: next.upcoming := by
  obtain ⟨before, ahead, closingValue, closingSpan⟩ := c
  cases ahead with
  | nil => exact .inl ⟨rfl, rfl⟩
  | cons token tokens => exact .inr ⟨token, _, _, rfl, rfl, rfl⟩

theorem ne_eof (h : c.hasTokens = true) : c.kind ≠ .eof := bne_iff_ne.mp h

theorem eq_eof (h : ¬ c.hasTokens = true) : c.kind = .eof := by
  simpa [hasTokens] using h

/-! ## Ways of reading -/

/-- If two readers follow the recognizer one after the other, so do both. -/
theorem Follows.bind {first : Except Failure (Read n α)}
    {andThen : Read n α → Except Failure (Read k β)} (h : Follows first s between)
    (hnext : ∀ value next shorter, first = .ok ⟨value, next, shorter⟩ →
      Follows (andThen ⟨value, next, shorter⟩) (between, next.upcoming) after) :
    Follows (first >>= andThen) s after := by
  cases first with
  | error failure => exact h
  | ok read =>
    have hrest := hnext read.value read.next read.shorter rfl
    change Follows (andThen read) s after
    cases hread : andThen read with
    | ok last =>
      rw [hread] at hrest
      exact h.trans hrest
    | error failure =>
      rw [hread] at hrest
      exact Fails.after hrest h

/-- Reading that takes nothing leaves the stack as it is. -/
theorem Follows.pure {value : α} {h : next.remaining < n} :
    Follows (Pure.pure ⟨value, next, h⟩ : Except Failure (Read n α)) (stack, next.upcoming) stack :=
  .refl

theorem Follows.ite {P : Prop} [Decidable P] {a b : Except Failure (Read n α)}
    (hthen : P → Follows a s after) (helse : ¬ P → Follows b s after) :
    Follows (if P then a else b) s after := by
  split
  · next hp => exact hthen hp
  · next hp => exact helse hp

/-- Reading begins with what the recognizer takes a part to consist of. -/
theorem Follows.open {result : Except Failure (Read n α)} (hp : p.predict c.kind = some items)
    (h : Follows result (items ++ stack, c.upcoming) after) :
    Follows result (.part p :: stack, c.upcoming) after := by
  obtain ⟨rest, hrest⟩ := c.upcoming_eq
  rw [hrest] at h ⊢
  cases result with
  | ok read => exact Reaches.open hp h
  | error failure => exact Fails.after h (Reaches.open hp .refl)

/-- Reading and the recognizer take the same of two ways on. -/
theorem Follows.branch {P : Prop} [Decidable P] {a b : Except Failure (Read n α)}
    {yes no : List Item} (hp : p.predict c.kind = some (if P then yes else no))
    (hthen : P → Follows a (yes ++ stack, c.upcoming) after)
    (helse : ¬ P → Follows b (no ++ stack, c.upcoming) after) :
    Follows (if P then a else b) (.part p :: stack, c.upcoming) after := by
  refine .ite (fun h => ?_) fun h => ?_
  · rw [if_pos h] at hp
    exact .open hp (hthen h)
  · rw [if_neg h] at hp
    exact .open hp (helse h)

/-- The recognizer takes the token that it has on its stack. -/
theorem Follows.take {result : Except Failure (Read n α)} {token : Token}
    (hupcoming : c.upcoming = token :: next.upcoming) (hkind : token.kind = kind)
    (hplain : kind.Plain)
    (h : Follows result (stack, next.upcoming) after) :
    Follows result (.token kind message :: stack, c.upcoming) after := by
  have hflaw : token.flaw? = none := Token.flaw?_of_plain (hkind ▸ hplain)
  rw [hupcoming]
  cases result with
  | ok read => exact Reaches.take hkind hflaw h
  | error failure => exact Fails.after h (Reaches.take hkind hflaw .refl)

/-- Reading stops where the recognizer finds nothing that a part can consist of. -/
theorem follows_fail {diagnostic : Diagnostic} (hp : p.predict c.kind = none)
    (h : diagnostic = c.current.unexpected (p.message? c.kind)) :
    Follows (c.fail diagnostic : Except Failure (Read n α)) (.part p :: stack, c.upcoming)
      after := by
  obtain ⟨rest, hrest⟩ := c.upcoming_eq
  rw [hrest]
  subst h
  exact fails_part hp

/-- A token that is asked for is on top of the stack, with what is said where it is missing. -/
theorem expectOr_follows {diagnostic : Diagnostic}
    (hkind : kind.Plain)
    (h : diagnostic = c.current.unexpected message) :
    Follows (c.expectOr kind diagnostic) (.token kind message :: stack, c.upcoming) stack := by
  rw [expectOr]
  rcases c.take?_follows with ⟨hc, heof⟩ | ⟨token, next, shorter, hc, hcurrent, hupcoming⟩
  · obtain ⟨rest, hrest⟩ := c.upcoming_eq
    rw [hc, hrest, h]
    exact fails_token fun heq => hkind.ne_eof (heq.symm.trans heof)
  · rw [hc, hupcoming, h, hcurrent]
    refine .ite (fun htoken => ?_) fun htoken => fails_token htoken
    exact Reaches.take htoken (Token.flaw?_of_plain (htoken ▸ hkind)) .refl

theorem expect_follows (hkind : kind.Plain) :
    Follows (c.expect kind) (.token kind none :: stack, c.upcoming) stack :=
  expectOr_follows hkind rfl

theorem expectFor_follows (hkind : kind.Plain)
    (message : String) :
    Follows (c.expectFor kind message) (.token kind (some message) :: stack, c.upcoming) stack :=
  expectOr_follows hkind rfl

theorem expectName_follows (message : String) :
    Follows (c.expectName message) (.name message :: stack, c.upcoming) stack := by
  rw [expectName]
  refine (expectFor_follows (by decide) message).bind fun _ _ _ _ => ?_
  exact .pure

/-! ## Expressions -/

theorem literal_follows (hstarts : c.kind.startsOperand = true) (hname : c.kind ≠ .identifier)
    (hparen : c.kind ≠ .openParen) :
    Follows c.literal (.word c.kind :: stack, c.upcoming) stack := by
  rw [literal]
  rcases c.take?_follows with ⟨hc, heof⟩ | ⟨token, next, shorter, hc, rfl, hupcoming⟩
  · rw [heof] at hstarts
    cases hstarts
  · rw [hc, hupcoming]
    simp only
    cases hliteral : c.current.literal with
    | ok value => exact Reaches.take rfl (Token.flaw?_of_literal hliteral) .refl
    | error diagnostic =>
      exact fails_flaw (Token.flaw?_of_not_literal hstarts hname hparen hliteral)

/-- What an operand consists of that is neither a name nor a group. -/
theorem operand_single (power : Power) (hname : kind ≠ .identifier) (hparen : kind ≠ .openParen) :
    Predictive.operand power kind =
      if kind.startsOperand then some [.word kind, .part (.operators power)] else none := by
  unfold Predictive.operand
  split
  · exact absurd rfl hname
  · exact absurd rfl hparen
  · rfl

mutual

/-- Expressions follow the recognizer at every power. The cases are those of its table, and the
mutual recursion is that of the readers. -/
theorem expr_follows (power : Power) (c : Cursor) (stack : List Item) :
    Follows (expr power c) (.part (.expression power) :: stack, c.upcoming) stack := by
  rw [expr]
  refine (operand_follows power c stack).bind fun left next _ _ => ?_
  refine (operators_follows power left next stack).bind fun _ _ _ _ => ?_
  exact .pure
termination_by 2 * c.remaining + 1

/-- An operand leaves the operators behind it on the stack. -/
theorem operand_follows (power : Power) (c : Cursor) (stack : List Item) :
    Follows (operand c) (.part (.expression power) :: stack, c.upcoming)
      (.part (.operators power) :: stack) := by
  rw [operand]
  rcases c.take?_follows with ⟨hc, heof⟩ | ⟨token, next, shorter, hc, rfl, hupcoming⟩
  · rw [hc]
    exact follows_fail (by rw [heof]; rfl) rfl
  · rw [hc]
    simp only
    split
    case h_1 hkind =>
      refine .open (congrArg (Predictive.operand power) hkind) ?_
      refine .take hupcoming hkind (by decide) ?_
      refine .branch rfl (fun _ => ?_) fun _ => ?_
      · refine (arguments_follows next _).bind fun _ _ _ _ => ?_
        exact .pure
      · exact .pure
    case h_2 hkind =>
      refine .open (congrArg (Predictive.operand power) hkind) ?_
      refine .take hupcoming hkind (by decide) ?_
      refine (expr_follows .default next _).bind fun _ _ _ _ => ?_
      refine (expectFor_follows (by decide) _).bind fun _ _ _ _ => ?_
      exact .pure
    case h_3 hname hparen =>
      refine .ite (fun hstarts => ?_) fun hstarts => ?_
      · refine .open ((operand_single power hname hparen).trans (if_pos hstarts)) ?_
        exact literal_follows hstarts hname hparen
      · exact follows_fail ((operand_single power hname hparen).trans (if_neg hstarts)) rfl
termination_by 2 * c.remaining

/-- Operators are predicted by the power and one token. -/
theorem operators_follows (power : Power) (left : Expr) (c : Cursor) (stack : List Item) :
    Follows (operators power left c) (.part (.operators power) :: stack, c.upcoming) stack := by
  rw [operators]
  refine .ite (fun hpower => .ite (fun hdot => ?_) fun hdot => .ite (fun hoperator => ?_)
    fun hoperator => ?_) fun hpower => ?_
  · refine (member_follows power left c hpower hdot stack).bind fun left next _ _ => ?_
    refine (operators_follows power left next stack).bind fun _ _ _ _ => ?_
    exact .pure
  · refine (binary_follows power left c hpower hdot hoperator stack).bind fun left next _ _ => ?_
    refine (operators_follows power left next stack).bind fun _ _ _ _ => ?_
    exact .pure
  · refine follows_fail ?_ rfl
    rw [Part.predict, if_pos hpower, if_neg hdot, if_neg hoperator]
  · refine .open (if_neg hpower) ?_
    exact .pure
termination_by 2 * c.remaining + 1

theorem binary_follows (power : Power) (left : Expr) (c : Cursor) (hpower : power < c.kind.power)
    (hdot : c.kind ≠ .dot) (hoperator : (Operator.ofKind? c.kind).isSome = true)
    (stack : List Item) :
    Follows (binary c.kind.power left c) (.part (.operators power) :: stack, c.upcoming)
      (.part (.operators power) :: stack) := by
  rw [binary]
  have hform : (Part.operators power).predict c.kind =
      some [.word c.kind, .part (.expression c.kind.power), .part (.operators power)] := by
    rw [Part.predict, if_pos hpower, if_neg hdot, if_pos hoperator]
  rcases c.take?_follows with ⟨hc, heof⟩ | ⟨token, next, shorter, hc, rfl, hupcoming⟩
  · rw [heof] at hoperator
    cases hoperator
  · rw [hc]
    simp only
    cases hfound : Operator.ofKind? c.current.kind with
    | none =>
      rw [kind, hfound] at hoperator
      cases hoperator
    | some operator =>
      refine .open hform (.take hupcoming rfl (Kind.plain_of_isOperator hoperator) ?_)
      refine (expr_follows c.kind.power next _).bind fun _ _ _ _ => ?_
      exact .pure
termination_by 2 * c.remaining

theorem member_follows (power : Power) (receiver : Expr) (c : Cursor)
    (hpower : power < c.kind.power) (hdot : c.kind = .dot) (stack : List Item) :
    Follows (member receiver c) (.part (.operators power) :: stack, c.upcoming)
      (.part (.operators power) :: stack) := by
  rw [member]
  rcases c.take?_follows with ⟨hc, heof⟩ | ⟨token, next, shorter, hc, rfl, hupcoming⟩
  · rw [heof] at hdot
    cases hdot
  · rw [hc]
    refine .open ((if_pos hpower).trans (if_pos hdot)) (.take hupcoming hdot (by decide) ?_)
    refine (expectFor_follows (by decide) _).bind fun name mid _ _ => ?_
    refine .branch rfl (fun _ => ?_) fun _ => ?_
    · refine (arguments_follows mid _).bind fun _ _ _ _ => ?_
      exact .pure
    · exact .pure
termination_by 2 * c.remaining

/-- With the parenthesis behind the name of a call the recognizer expects a first argument or none.
-/
theorem arguments_follows (c : Cursor) (stack : List Item) :
    Follows (arguments c) (.word .openParen :: .part .firstArgument :: stack, c.upcoming)
      stack := by
  rw [arguments]
  refine (expect_follows (by decide)).bind fun _ next _ _ => ?_
  refine .branch rfl (fun _ => ?_) fun _ => ?_
  · refine (expect_follows (by decide)).bind fun _ _ _ _ => ?_
    exact .pure
  · refine (expr_follows .default next _).bind fun _ mid _ _ => ?_
    refine (moreArguments_follows mid _).bind fun _ last _ _ => ?_
    refine (expectFor_follows (by decide) _).bind fun _ _ _ _ => ?_
    exact .pure
termination_by 2 * c.remaining

/-- Behind an argument there is a comma or the end of the arguments, which is left on the stack. -/
theorem moreArguments_follows (c : Cursor) (stack : List Item) :
    Follows (moreArguments c) (.part .moreArguments :: stack, c.upcoming)
      (.token .closeParen (some "expected `,` or `)` in argument list") :: stack) := by
  rw [moreArguments]
  refine .branch rfl (fun _ => ?_) fun _ => ?_
  · refine (expect_follows (by decide)).bind fun _ next _ _ => ?_
    refine (expr_follows .default next _).bind fun _ mid _ _ => ?_
    refine (moreArguments_follows mid _).bind fun _ _ _ _ => ?_
    exact .pure
  · exact .pure
termination_by 2 * c.remaining

end

/-! ## Statements -/

theorem typeMark_follows (message : String) :
    Follows (c.typeMark message) (.part (.typeMark message) :: stack, c.upcoming) stack := by
  rw [typeMark]
  refine .branch rfl (fun _ => ?_) fun _ => ?_
  · refine (expect_follows (by decide)).bind fun _ _ _ _ => ?_
    refine (expectName_follows _).bind fun _ _ _ _ => ?_
    exact .pure
  · exact .pure

theorem firstValue_follows :
    Follows c.firstValue (.part .firstValue :: stack, c.upcoming) stack := by
  rw [firstValue]
  refine .branch rfl (fun _ => ?_) fun _ => ?_
  · refine (expect_follows (by decide)).bind fun _ next _ _ => ?_
    refine (expr_follows .default next _).bind fun _ _ _ _ => ?_
    exact .pure
  · exact .pure

theorem declaration_follows :
    Follows c.declaration (Part.declaration ++ stack, c.upcoming) stack := by
  rw [declaration]
  refine (expect_follows (by decide)).bind fun _ _ _ _ => ?_
  refine (expectName_follows _).bind fun _ _ _ _ => ?_
  refine (typeMark_follows _).bind fun _ _ _ _ => ?_
  refine firstValue_follows.bind fun _ _ _ _ => ?_
  refine (expect_follows (by decide)).bind fun _ _ _ _ => ?_
  exact .pure

theorem returns_follows : Follows c.returns (Part.returns ++ stack, c.upcoming) stack := by
  rw [returns]
  refine (expect_follows (by decide)).bind fun _ next _ _ => ?_
  refine (expr_follows .default next _).bind fun _ _ _ _ => ?_
  refine (expect_follows (by decide)).bind fun _ _ _ _ => ?_
  exact .pure

/-- An expression and an assignment begin alike; the sign of assignment decides behind the
expression. -/
theorem expressionOrAssignment_follows :
    Follows c.expressionOrAssignment (Part.expressionOrAssignment ++ stack, c.upcoming) stack := by
  rw [expressionOrAssignment]
  refine (expr_follows .default c _).bind fun _ _ _ _ => ?_
  refine firstValue_follows.bind fun value _ _ _ => ?_
  refine (expect_follows (by decide)).bind fun _ _ _ _ => ?_
  cases value with
  | some value => exact .pure
  | none => exact .pure

/-- Statements end in front of a word that can close them. -/
theorem block_closed (closers : List Kind) (c : Cursor) {r : Read (c.remaining + 1) (List Stmt)}
    (h : block closers c = .ok r) : r.next.kind ∈ closers := by
  rw [block] at h
  split at h
  · next hmem =>
    obtain rfl := Except.ok.inj h
    exact hmem
  · split at h
    · obtain ⟨first, -, h⟩ := ok_of_bind h
      obtain ⟨others, hothers, h⟩ := ok_of_bind h
      obtain rfl := Except.ok.inj h
      exact block_closed closers first.next hothers
    · cases h
termination_by c.remaining
decreasing_by exact first.shorter

mutual

/-- A statement is predicted by its first token. -/
theorem stmt_follows (c : Cursor) (stack : List Item) :
    Follows (stmt c) (.part .statement :: stack, c.upcoming) stack := by
  rw [stmt]
  split
  case h_1 hkind => exact .open (by rw [hkind]; rfl) declaration_follows
  case h_2 hkind => exact .open (by rw [hkind]; rfl) (conditional_follows c stack)
  case h_3 hkind => exact .open (by rw [hkind]; rfl) (forEach_follows c stack)
  case h_4 hkind => exact .open (by rw [hkind]; rfl) (whileLoop_follows c stack)
  case h_5 hkind => exact .open (by rw [hkind]; rfl) returns_follows
  case h_6 hlet hif hfor hwhile hreturn =>
    refine .open (congrArg some ?_) expressionOrAssignment_follows
    unfold Part.statementForm
    split
    all_goals first | contradiction | rfl
termination_by 3 * c.remaining + 1

/-- A block that only `END` closes. -/
theorem body_follows (c : Cursor) (stack : List Item) :
    Follows (block [.endWord] c) (.part .body :: stack, c.upcoming) (.word .endWord :: stack) := by
  rw [block]
  refine .ite (fun hend => ?_) fun hend => .ite (fun hmore => ?_) fun hmore => ?_
  · refine .open (if_pos (List.mem_singleton.mp hend)) ?_
    exact .pure
  · refine .open (Part.predict_body_more (hend ∘ List.mem_singleton.mpr) (ne_eof hmore)) ?_
    refine (stmt_follows c _).bind fun _ next _ _ => ?_
    refine (body_follows next _).bind fun _ _ _ _ => ?_
    exact .pure
  · exact follows_fail (congrArg Part.body.predict (eq_eof hmore)) rfl
termination_by 3 * c.remaining + 2

/-- A block that `ELSE` closes as well, which is left to be decided on. -/
theorem branches_follows (c : Cursor) (stack : List Item) :
    Follows (block [.elseWord, .endWord] c) (.part .branches :: stack, c.upcoming)
      (.part .branches :: stack) := by
  rw [block]
  refine .ite (fun hclosed => ?_) fun hopen => .ite (fun hmore => ?_) fun hmore => ?_
  · exact .pure
  · simp only [List.mem_cons, List.not_mem_nil, or_false, not_or] at hopen
    refine .open (Part.predict_branches_more hopen.1 hopen.2 (ne_eof hmore)) ?_
    refine (stmt_follows c _).bind fun _ next _ _ => ?_
    refine (branches_follows next _).bind fun _ _ _ _ => ?_
    exact .pure
  · exact follows_fail (congrArg Part.branches.predict (eq_eof hmore)) rfl
termination_by 3 * c.remaining + 2

theorem conditional_follows (c : Cursor) (stack : List Item) :
    Follows (conditional c) (Part.conditional ++ stack, c.upcoming) stack := by
  rw [conditional]
  refine (expect_follows (by decide)).bind fun _ next _ _ => ?_
  refine (expr_follows .default next _).bind fun _ mid _ _ => ?_
  refine (expect_follows (c := mid) (by decide)).bind fun _ next _ _ => ?_
  refine (branches_follows next _).bind fun _ next' _ hblock => ?_
  refine (elseBlock_follows next' _ (block_closed _ _ hblock)).bind fun _ _ _ _ => ?_
  refine (expect_follows (by decide)).bind fun _ _ _ _ => ?_
  exact .pure
termination_by 3 * c.remaining

theorem elseBlock_follows (c : Cursor) (stack : List Item)
    (hclosed : c.kind ∈ [.elseWord, .endWord]) :
    Follows (elseBlock c) (.part .branches :: stack, c.upcoming) (.word .endWord :: stack) := by
  rw [elseBlock]
  refine .ite (fun helse => ?_) fun helse => ?_
  · refine .open (if_pos helse) ?_
    refine (expect_follows (by decide)).bind fun _ next _ _ => ?_
    refine (body_follows next _).bind fun _ _ _ _ => ?_
    exact .pure
  · have hend : c.kind = .endWord :=
      List.mem_singleton.mp ((List.mem_cons.mp hclosed).resolve_left helse)
    refine .open ((if_neg helse).trans (if_pos hend)) ?_
    exact .pure
termination_by 3 * c.remaining

theorem forEach_follows (c : Cursor) (stack : List Item) :
    Follows (forEach c) (Part.forEach ++ stack, c.upcoming) stack := by
  rw [forEach]
  refine (expect_follows (by decide)).bind fun _ _ _ _ => ?_
  refine (expectName_follows _).bind fun _ mid _ _ => ?_
  refine (expect_follows (c := mid) (by decide)).bind fun _ next _ _ => ?_
  refine (expr_follows .default next _).bind fun _ mid _ _ => ?_
  refine (expect_follows (c := mid) (by decide)).bind fun _ next _ _ => ?_
  refine (body_follows next _).bind fun _ _ _ _ => ?_
  refine (expect_follows (by decide)).bind fun _ _ _ _ => ?_
  exact .pure
termination_by 3 * c.remaining

theorem whileLoop_follows (c : Cursor) (stack : List Item) :
    Follows (whileLoop c) (Part.whileLoop ++ stack, c.upcoming) stack := by
  rw [whileLoop]
  refine (expect_follows (by decide)).bind fun _ next _ _ => ?_
  refine (expr_follows .default next _).bind fun _ mid _ _ => ?_
  refine (expect_follows (c := mid) (by decide)).bind fun _ next _ _ => ?_
  refine (body_follows next _).bind fun _ _ _ _ => ?_
  refine (expect_follows (by decide)).bind fun _ _ _ _ => ?_
  exact .pure
termination_by 3 * c.remaining

end

/-! ## Programs -/

theorem field_follows : Follows c.field (Part.field ++ stack, c.upcoming) stack := by
  rw [field]
  refine (expect_follows (by decide)).bind fun _ _ _ _ => ?_
  refine (expectName_follows _).bind fun _ _ _ _ => ?_
  refine (expectFor_follows (by decide) _).bind fun _ _ _ _ => ?_
  refine (expectName_follows _).bind fun _ _ _ _ => ?_
  refine firstValue_follows.bind fun _ _ _ _ => ?_
  refine (expect_follows (by decide)).bind fun _ _ _ _ => ?_
  exact .pure

theorem parameters_follows (c : Cursor) (stack : List Item) :
    Follows c.parameters (Part.parameter ++ stack, c.upcoming)
      (.token .closeParen (some "expected `,` or `)` in parameter list") :: stack) := by
  rw [parameters]
  refine (expectName_follows _).bind fun _ mid _ _ => ?_
  refine (expect_follows (c := mid) (by decide)).bind fun _ mid _ _ => ?_
  refine (expectName_follows (c := mid) _).bind fun _ mid _ _ => ?_
  refine .branch rfl (fun _ => ?_) fun _ => ?_
  · refine (expect_follows (c := mid) (by decide)).bind fun _ next _ _ => ?_
    refine (parameters_follows next _).bind fun _ _ _ _ => ?_
    exact .pure
  · exact .pure
termination_by c.remaining

theorem parameterList_follows :
    Follows c.parameterList (.word .openParen :: .part .firstParameter :: stack, c.upcoming)
      stack := by
  rw [parameterList]
  refine (expect_follows (by decide)).bind fun _ next _ _ => ?_
  refine .branch rfl (fun _ => ?_) fun _ => ?_
  · refine (expect_follows (by decide)).bind fun _ _ _ _ => ?_
    exact .pure
  · refine (parameters_follows next _).bind fun _ _ _ _ => ?_
    refine (expectFor_follows (by decide) _).bind fun _ _ _ _ => ?_
    exact .pure

/-- A method is a list of words and parts, like any declaration. -/
theorem method_follows : Follows c.method (Part.method ++ stack, c.upcoming) stack := by
  rw [method]
  refine (expect_follows (by decide)).bind fun _ _ _ _ => ?_
  refine (expectName_follows _).bind fun _ _ _ _ => ?_
  refine parameterList_follows.bind fun _ _ _ _ => ?_
  refine (typeMark_follows _).bind fun _ _ _ _ => ?_
  refine (expect_follows (by decide)).bind fun _ next _ _ => ?_
  refine (body_follows next _).bind fun _ _ _ _ => ?_
  refine (expect_follows (by decide)).bind fun _ _ _ _ => ?_
  exact .pure

theorem methods_follows (c : Cursor) (stack : List Item) :
    Follows c.methods (.part .methods :: stack, c.upcoming) stack := by
  rw [methods]
  refine .ite (fun hmore => ?_) fun hmore => ?_
  · have hform : Part.methods.predict c.kind =
        if c.kind = .defWord then some (Part.method ++ [.part .methods]) else none :=
      if_neg (ne_eof hmore)
    split
    case h_1 hkind =>
      refine .open (hform.trans (if_pos hkind)) ?_
      refine method_follows.bind fun _ next _ _ => ?_
      refine (methods_follows next _).bind fun _ _ _ _ => ?_
      exact .pure
    case h_2 hkind =>
      exact follows_fail (congrArg Part.methods.predict hkind) (by rw [hkind]; rfl)
    case h_3 hdef hlet =>
      refine follows_fail (hform.trans (if_neg hdef)) ?_
      unfold Part.message?
      split
      all_goals first | contradiction | rfl
  · refine .open (congrArg Part.methods.predict (eq_eof hmore)) ?_
    exact .pure
termination_by c.remaining

theorem fields_follows (c : Cursor) (stack : List Item) :
    Follows c.fields (.part .fields :: stack, c.upcoming) (.part .methods :: stack) := by
  rw [fields]
  refine .branch rfl (fun _ => ?_) fun _ => ?_
  · refine field_follows.bind fun _ next _ _ => ?_
    refine (fields_follows next _).bind fun _ _ _ _ => ?_
    exact .pure
  · exact .pure
termination_by c.remaining

/-- A program is read as the recognizer goes, from its fields alone on the stack to nothing. -/
theorem program_follows (c : Cursor) : Follows c.program ([.part .fields], c.upcoming) [] := by
  rw [program]
  refine (fields_follows c []).bind fun _ next _ _ => ?_
  refine (methods_follows next []).bind fun _ _ _ _ => ?_
  exact .pure

/-- What a cursor has to come at the start are the tokens, with their own end. -/
theorem upcoming_ofTokens {inner : List Token} {close : Token} (hclose : close.kind = .eof)
    (file : String) : (ofTokens (inner ++ [close]) file).upcoming = inner ++ [close] := by
  obtain ⟨kind, value, span⟩ := close
  obtain rfl : kind = .eof := hclose
  rw [ofTokens, List.getLast?_concat]
  simp only [upcoming, closing, if_true, List.dropLast_concat]

/-- What stands in front of a cursor begins with the tokens that it was made from. -/
theorem isPrefix_upcoming (tokens : List Token) (file : String) :
    tokens <+: (ofTokens tokens file).upcoming := by
  rcases List.eq_nil_or_concat tokens with rfl | ⟨inner, close, rfl⟩
  · exact List.nil_prefix
  · by_cases hclose : close.kind = .eof
    · rw [List.concat_eq_append, upcoming_ofTokens hclose]
    · rw [List.concat_eq_append, ofTokens, List.getLast?_concat]
      simp only [upcoming, if_neg hclose]
      exact List.prefix_append _ _

end Cursor

namespace Program

variable {tokens rest : List Token} {file : String} {item : Item} {stack : List Item}
  {token : Token}

/-- Where the recognizer gets stuck, reading fails with its fault. -/
theorem parse_of_stuck
    (h : Reaches ([.part .fields], (Cursor.ofTokens tokens file).upcoming)
      (item :: stack, token :: rest))
    (hstuck : step (item :: stack, token :: rest) = none) :
    parse tokens file = .error (item.blame token) := by
  have hfollows := (Cursor.ofTokens tokens file).program_follows
  rw [parse]
  cases hread : (Cursor.ofTokens tokens file).program with
  | ok read =>
    rw [hread] at hfollows
    cases Reaches.unique h hfollows hstuck rfl
  | error failure =>
    rw [hread] at hfollows
    obtain ⟨item', stack', token', rest', hway, hstuck', hblame⟩ := hfollows
    cases Reaches.unique h hway hstuck hstuck'
    exact congrArg Except.error hblame

/-- Where the recognizer gets through, a program is read. -/
theorem parse_of_reaches (htokens : Orderly tokens)
    (h : Reaches ([.part .fields], tokens) ([], rest)) :
    ∃ program, parse tokens file = .ok program := by
  obtain ⟨inner, close, rfl, hclose, -⟩ := htokens.closed
  rw [← Cursor.upcoming_ofTokens hclose file] at h
  generalize inner ++ [close] = tokens at h ⊢
  have hfollows := (Cursor.ofTokens tokens file).program_follows
  rw [parse]
  cases hread : (Cursor.ofTokens tokens file).program with
  | ok read => exact ⟨read.value, rfl⟩
  | error failure =>
    rw [hread] at hfollows
    obtain ⟨item, stack, token, rest', hway, hstuck, -⟩ := hfollows
    cases Reaches.unique h hway rfl hstuck

/-- A failure to read is where the recognizer gets stuck. The way there is divided where the token
at fault comes to stand in front. -/
theorem fails_of_parse {diagnostic : Diagnostic} (htokens : Orderly tokens)
    (h : parse tokens file = .error diagnostic) :
    ∃ taken middle item stack token rest, tokens = taken ++ token :: rest ∧
      (∀ rest', Reaches ([.part .fields], taken ++ rest') (middle, rest')) ∧
      (∀ rest', Reaches (middle, token :: rest') (item :: stack, token :: rest')) ∧
      step (item :: stack, token :: rest) = none ∧ diagnostic = item.blame token := by
  obtain ⟨inner, close, rfl, hclose, -⟩ := htokens.closed
  have hfollows := (Cursor.ofTokens (inner ++ [close]) file).program_follows
  rw [parse] at h
  cases hread : (Cursor.ofTokens (inner ++ [close]) file).program with
  | ok read =>
    rw [hread] at h
    cases h
  | error failure =>
    rw [hread] at h hfollows
    obtain rfl : failure.diagnostic = diagnostic := Except.error.inj h
    obtain ⟨item, stack, token, rest, hway, hstuck, hblame⟩ := hfollows
    rw [Cursor.upcoming_ofTokens hclose] at hway
    obtain ⟨taken, middle, htaken, hto, hon⟩ := Reaches.split hway
    exact ⟨taken, middle, item, stack, token, rest, htaken, hto, hon token rest rfl, hstuck, hblame⟩

/-- Token `i` is the first with which some tokens are no longer the beginning of a program, and the
diagnostic is its fault. -/
structure FirstImpossible (tokens : List Token) (diagnostic : Diagnostic) (i : Nat) : Prop where
  /-- the diagnostic is where the token starts -/
  position : ∃ token, tokens[i]? = some token ∧ diagnostic.position = token.span.start
  /-- no other token starts there -/
  unique : ∀ j other, tokens[j]? = some other → diagnostic.position = other.span.start → j = i
  /-- the tokens before it go on to a program -/
  viable : ∃ more file program, Orderly (tokens.take i ++ more) ∧
    parse (tokens.take i ++ more) file = .ok program
  /-- reading fails in that way whatever stands behind it -/
  impossible : ∀ others file, tokens.take (i + 1) <+: others →
    parse others file = .error diagnostic

/-- Reading fails at the first token with which the tokens are no longer the beginning of a
program. -/
theorem fails_at_first_impossible {diagnostic : Diagnostic} (htokens : Orderly tokens)
    (h : parse tokens file = .error diagnostic) : ∃ i, FirstImpossible tokens diagnostic i := by
  obtain ⟨taken, middle, item, stack, token, rest, rfl, hto, hon, hstuck, rfl⟩ :=
    fails_of_parse htokens h
  have htoken : (taken ++ token :: rest)[taken.length]? = some token := by simp
  have hblame := item.blame_position token
  refine ⟨taken.length, ⟨token, htoken, hblame⟩, fun j other hother hposition => ?_, ?_, ?_⟩
  · exact htokens.index_unique htoken hother (hblame.symm.trans hposition)
  · have hformed : Formed middle := (hto []).formed ⟨rfl, trivial⟩
    have horderly := orderly_append_supply htokens hformed.ne_eof
    obtain ⟨program, hprogram⟩ := parse_of_reaches horderly ((hto _).trans (hformed.completes _))
    rw [List.take_left]
    exact ⟨_, file, program, horderly, hprogram⟩
  · intro others file' hothers
    obtain ⟨rest', hrest'⟩ := hothers.trans (Cursor.isPrefix_upcoming others file')
    have htaken : (taken ++ token :: rest).take (taken.length + 1) = taken ++ [token] := by
      rw [List.take_length_add_append, List.take_succ_cons, List.take_zero]
    rw [htaken, List.append_assoc] at hrest'
    have hway : Reaches ([.part .fields], (Cursor.ofTokens others file').upcoming)
        (item :: stack, token :: rest') := by
      rw [← hrest']
      exact (hto _).trans (hon rest')
    exact parse_of_stuck hway (stuck_of_stuck hstuck stack rest')

/-- The tokens of `LET x = 1;`, where the type of the field is missing. -/
def untypedField : List Token :=
  [⟨.letWord, "LET", ⟨⟨0, "main"⟩, ⟨3, "main"⟩⟩⟩, ⟨.identifier, "x", ⟨⟨4, "main"⟩, ⟨5, "main"⟩⟩⟩,
    ⟨.assignment, "=", ⟨⟨6, "main"⟩, ⟨7, "main"⟩⟩⟩, ⟨.integer, "1", ⟨⟨8, "main"⟩, ⟨9, "main"⟩⟩⟩,
    ⟨.semicolon, ";", ⟨⟨9, "main"⟩, ⟨10, "main"⟩⟩⟩, ⟨.eof, "EOF", ⟨⟨10, "main"⟩, ⟨10, "main"⟩⟩⟩]

theorem untypedField_fails_at_assignment :
    Orderly untypedField ∧
      parse untypedField "main" =
        .error ⟨.unexpectedTokenDetailed "=" "fields require an explicit type", ⟨6, "main"⟩⟩ ∧
      FirstImpossible untypedField
        ⟨.unexpectedTokenDetailed "=" "fields require an explicit type", ⟨6, "main"⟩⟩ 2 := by
  have horderly : Orderly untypedField :=
    ⟨by decide, by decide, untypedField.dropLast, _, rfl, rfl, by decide⟩
  have hway : Reaches ([.part .fields], (Cursor.ofTokens untypedField "main").upcoming)
      (Part.field.drop 2 ++ [.part .fields], untypedField.drop 2) :=
    .open rfl (.take rfl rfl (.take rfl rfl .refl))
  have hfails : parse untypedField "main" =
      .error ⟨.unexpectedTokenDetailed "=" "fields require an explicit type", ⟨6, "main"⟩⟩ :=
    parse_of_stuck hway rfl
  obtain ⟨i, hi⟩ := fails_at_first_impossible horderly hfails
  obtain rfl : 2 = i := hi.unique 2 _ rfl rfl
  exact ⟨horderly, hfails, hi⟩

end Program

end TeachLang
