import TeachLang.Proofs.Layout
import TeachLang.Syntax.ReadProgram

/-!
# Reading does not look at places

What is read depends on the kinds and values of the tokens alone: from tokens that are the same up
to layout either the same tree is read, up to layout, or there is the same fault. `Cursor.Alike`
says so of two results of reading, and is put together along the way that both go.
-/

namespace TeachLang

namespace Cursor

/-- What stands in front of a cursor, without the places. -/
def unplaced (c : Cursor) : List Token × String := (c.ahead.map Token.unplaced, c.closingValue)

/-- What was read, and what stands behind it, without the places; or else the fault. -/
def seen {α β : Type} {n : Nat} (strip : α → β) :
    Except Failure (Read n α) → Except Fault (β × List Token × String)
  | .ok read => .ok (strip read.value, read.next.unplaced)
  | .error failure => .error failure.diagnostic.fault

/-- Two results of reading that are the same up to layout. -/
def Alike {α β : Type} {n k : Nat} (strip : α → β) (a : Except Failure (Read n α))
    (b : Except Failure (Read k α)) : Prop :=
  seen strip a = seen strip b

variable {α β α' β' : Type} {n k i j : Nat} {strip : α → β} {strip' : α' → β'} {c d : Cursor}

/-- If reading begins alike and goes on alike then it is alike. -/
theorem Alike.bind {first : Except Failure (Read n α)} {first' : Except Failure (Read k α)}
    {andThen : Read n α → Except Failure (Read i α')}
    {andThen' : Read k α → Except Failure (Read j α')} (h : Alike strip first first')
    (hnext : ∀ value next shorter value' next' shorter', strip value = strip value' →
      next.unplaced = next'.unplaced →
        Alike strip' (andThen ⟨value, next, shorter⟩) (andThen' ⟨value', next', shorter'⟩)) :
    Alike strip' (first >>= andThen) (first' >>= andThen') := by
  cases first with
  | error failure =>
    cases first' with
    | error failure' => exact congrArg Except.error (Except.error.inj h)
    | ok read' => cases h
  | ok read =>
    cases first' with
    | error failure' => cases h
    | ok read' =>
      obtain ⟨value, next, shorter⟩ := read
      obtain ⟨value', next', shorter'⟩ := read'
      obtain ⟨hvalue, hplace⟩ := Prod.mk.inj (Except.ok.inj h)
      exact hnext _ _ _ _ _ _ hvalue hplace

/-- What is read without a further token is alike if it was so before. -/
theorem Alike.pure {value value' : α} {next next' : Cursor} {h : next.remaining < n}
    {h' : next'.remaining < k} (hvalue : strip value = strip value')
    (hnext : next.unplaced = next'.unplaced) :
    Alike strip (Pure.pure ⟨value, next, h⟩ : Except Failure (Read n α))
      (Pure.pure ⟨value', next', h'⟩ : Except Failure (Read k α)) := by
  rw [Alike, Pure.pure, Applicative.toPure, Monad.toApplicative]
  exact congrArg Except.ok (congrArg₂ Prod.mk hvalue hnext)

/-- Two readers that test the same go the same way. -/
theorem Alike.ite {p : Prop} [Decidable p] {a b : Except Failure (Read n α)}
    {a' b' : Except Failure (Read k α)} (hthen : p → Alike strip a a')
    (helse : ¬ p → Alike strip b b') :
    Alike strip (if p then a else b) (if p then a' else b') := by
  split
  · next hp => exact hthen hp
  · next hp => exact helse hp

/-- Two stops with one fault. -/
theorem alike_fail {diagnostic diagnostic' : Diagnostic}
    (h : diagnostic.fault = diagnostic'.fault) :
    Alike strip (c.fail diagnostic : Except Failure (Read n α))
      (d.fail diagnostic' : Except Failure (Read k α)) :=
  congrArg Except.error h

section Tokens

variable (h : c.unplaced = d.unplaced)

include h

/-- Cursors that are the same up to layout have tokens in front of them that are so, and stay so
behind them. -/
theorem take?_cases : (c.take? = none ∧ d.take? = none) ∨
    ∃ token next shorter token' next' shorter',
      c.take? = some ⟨token, next, shorter⟩ ∧ d.take? = some ⟨token', next', shorter'⟩ ∧
        token.unplaced = token'.unplaced ∧ next.unplaced = next'.unplaced := by
  obtain ⟨before, ahead, closingValue, closingSpan⟩ := c
  obtain ⟨before', ahead', closingValue', closingSpan'⟩ := d
  obtain ⟨hahead, hclosing⟩ := Prod.mk.inj h
  cases ahead with
  | nil =>
    obtain rfl := List.map_eq_nil_iff.mp hahead.symm
    exact .inl ⟨rfl, rfl⟩
  | cons token tokens =>
    cases ahead' with
    | nil => cases hahead
    | cons token' tokens' =>
      obtain ⟨htoken, htokens⟩ := List.cons.inj hahead
      exact .inr ⟨token, _, _, token', _, _, rfl, rfl, htoken, congrArg₂ Prod.mk htokens hclosing⟩

/-- The tokens in front of the two cursors are the same up to their places. -/
theorem unplaced_current : c.current.unplaced = d.current.unplaced := by
  obtain ⟨before, ahead, closingValue, closingSpan⟩ := c
  obtain ⟨before', ahead', closingValue', closingSpan'⟩ := d
  obtain ⟨hahead, hclosing⟩ := Prod.mk.inj h
  cases ahead with
  | nil =>
    obtain rfl := List.map_eq_nil_iff.mp hahead.symm
    obtain rfl : closingValue = closingValue' := hclosing
    rfl
  | cons token tokens =>
    cases ahead' with
    | nil => cases hahead
    | cons token' tokens' => exact (List.cons.inj hahead).1

theorem kind_alike : c.kind = d.kind := Token.kind_of_unplaced (unplaced_current h)

/-- A fault names the value of a token, which is no matter of its place. -/
theorem fault_unexpected : c.unexpected.fault = d.unexpected.fault :=
  congrArg Fault.unexpectedToken (Token.value_of_unplaced (unplaced_current h))

theorem fault_unexpectedFor (message : String) :
    (c.unexpectedFor message).fault = (d.unexpectedFor message).fault :=
  congrArg (Fault.unexpectedTokenDetailed · message)
    (Token.value_of_unplaced (unplaced_current h))

/-- A token that is asked for is there for both cursors or for none, and the faults only differ in
their places. -/
theorem expectOr_alike (kind : Kind) {diagnostic diagnostic' : Diagnostic}
    (hfault : diagnostic.fault = diagnostic'.fault) :
    Alike Token.unplaced (c.expectOr kind diagnostic) (d.expectOr kind diagnostic') := by
  rw [expectOr, expectOr]
  rcases take?_cases h with
    ⟨hc, hd⟩ | ⟨token, next, shorter, token', next', shorter', hc, hd, htoken, hnext⟩
  · rw [hc, hd]
    exact alike_fail hfault
  · rw [hc, hd]
    have hkind := Token.kind_of_unplaced htoken
    simp only [hkind]
    exact .ite (fun _ => .pure htoken hnext) fun _ => alike_fail hfault

theorem expect_alike (kind : Kind) : Alike Token.unplaced (c.expect kind) (d.expect kind) :=
  expectOr_alike h kind (fault_unexpected h)

theorem expectFor_alike (kind : Kind) (message : String) :
    Alike Token.unplaced (c.expectFor kind message) (d.expectFor kind message) :=
  expectOr_alike h kind (fault_unexpectedFor h message)

/-- Names are read as the same names. -/
theorem expectName_alike (message : String) :
    Alike id (c.expectName message) (d.expectName message) := by
  rw [expectName, expectName]
  refine (expectFor_alike h .identifier message).bind fun _ _ _ _ _ _ htoken hnext => ?_
  exact .pure (Token.value_of_unplaced htoken) hnext

end Tokens

/-- The constant that a token denotes, or the fault of denoting none, has nothing to do with where
the token stands. -/
theorem literal_unplaced (token : Token) :
    token.unplaced.literal = unplacedResult id token.literal := by
  obtain ⟨kind, value, span⟩ := token
  unfold Token.unplaced Token.literal
  cases kind
  case integer => cases Text.integer? (withoutPlus value) <;> rfl
  case decimal => cases Decimal.read? (String.ofList (withoutPlus value)) <;> rfl
  case character => cases value.toList <;> rfl
  all_goals rfl

/-! ## Expressions -/

/-- Literals are read as the same value, or are out of range alike. -/
theorem literal_alike (h : c.unplaced = d.unplaced) :
    Alike Expr.unplaced c.literal d.literal := by
  rw [literal, literal]
  rcases take?_cases h with
    ⟨hc, hd⟩ | ⟨token, next, shorter, token', next', shorter', hc, hd, htoken, hnext⟩
  · rw [hc, hd]
    exact alike_fail (fault_unexpected h)
  · rw [hc, hd]
    have hliteral : unplacedResult id token.literal = unplacedResult id token'.literal := by
      rw [← literal_unplaced, ← literal_unplaced, htoken]
    simp only
    cases hvalue : token.literal with
    | ok value =>
      cases hvalue' : token'.literal with
      | ok value' =>
        rw [hvalue, hvalue'] at hliteral
        obtain rfl : value = value' := Except.ok.inj hliteral
        exact .pure rfl hnext
      | error diagnostic' =>
        rw [hvalue, hvalue'] at hliteral
        cases hliteral
    | error diagnostic =>
      cases hvalue' : token'.literal with
      | ok value' =>
        rw [hvalue, hvalue'] at hliteral
        cases hliteral
      | error diagnostic' =>
        rw [hvalue, hvalue'] at hliteral
        exact alike_fail (congrArg Diagnostic.fault (Except.error.inj hliteral) :)

mutual

/-- Expressions are read alike at every power. As the readers call each other, so do the inductions
here, and each goes down by the tokens that are left. -/
theorem expr_alike (power : Power) (c d : Cursor) (h : c.unplaced = d.unplaced) :
    Alike Expr.unplaced (expr power c) (expr power d) := by
  rw [expr, expr]
  refine (operand_alike c d h).bind fun left next _ left' next' _ hleft hnext => ?_
  refine (operators_alike power left left' next next' hleft hnext).bind
    fun _ _ _ _ _ _ hwhole hlast => ?_
  exact .pure hwhole hlast
termination_by 2 * c.remaining + 1

theorem operand_alike (c d : Cursor) (h : c.unplaced = d.unplaced) :
    Alike Expr.unplaced (operand c) (operand d) := by
  rw [operand, operand]
  rcases take?_cases h with
    ⟨hc, hd⟩ | ⟨token, next, shorter, token', next', shorter', hc, hd, htoken, hnext⟩
  · rw [hc, hd]
    exact alike_fail (fault_unexpectedFor h _)
  · rw [hc, hd]
    have hkind := Token.kind_of_unplaced htoken
    have hvalue := Token.value_of_unplaced htoken
    simp only
    rw [← hkind]
    cases hcase : token.kind
    case identifier =>
      simp only [kind_alike hnext]
      refine .ite (fun _ => ?_) fun _ => ?_
      · refine (arguments_alike next next' hnext).bind fun es _ _ es' _ _ hes hlast => ?_
        exact .pure (congrArg₂ (Expr.call · · none default) hvalue hes) hlast
      · exact .pure (congrArg (Expr.name · none default) hvalue) hnext
    case openParen =>
      refine (expr_alike .default next next' hnext).bind fun e _ _ e' _ _ he hmid => ?_
      refine (expectFor_alike hmid .closeParen _).bind fun _ _ _ _ _ _ _ hlast => ?_
      exact .pure (congrArg (Expr.group · none default) he) hlast
    all_goals
      exact .ite (fun _ => literal_alike h) fun _ => alike_fail (fault_unexpectedFor h _)
termination_by 2 * c.remaining

/-- Two cursors meet the same operators behind operands that are the same. -/
theorem operators_alike (power : Power) (left left' : Expr) (c d : Cursor)
    (hleft : left.unplaced = left'.unplaced) (h : c.unplaced = d.unplaced) :
    Alike Expr.unplaced (operators power left c) (operators power left' d) := by
  rw [operators, operators]
  simp only [kind_alike h]
  refine .ite (fun _ => .ite (fun _ => ?_) fun _ => .ite (fun _ => ?_) fun _ => ?_) fun _ => ?_
  · refine (member_alike left left' c d hleft h).bind fun left _ _ left' _ _ hleft hnext => ?_
    refine (operators_alike power left left' _ _ hleft hnext).bind
      fun _ _ _ _ _ _ hwhole hlast => ?_
    exact .pure hwhole hlast
  · refine (binary_alike d.kind.power left left' c d hleft h).bind
      fun left _ _ left' _ _ hleft hnext => ?_
    refine (operators_alike power left left' _ _ hleft hnext).bind
      fun _ _ _ _ _ _ hwhole hlast => ?_
    exact .pure hwhole hlast
  · exact alike_fail (fault_unexpected h)
  · exact .pure hleft h
termination_by 2 * c.remaining + 1

theorem binary_alike (power : Power) (left left' : Expr) (c d : Cursor)
    (hleft : left.unplaced = left'.unplaced) (h : c.unplaced = d.unplaced) :
    Alike Expr.unplaced (binary power left c) (binary power left' d) := by
  rw [binary, binary]
  rcases take?_cases h with
    ⟨hc, hd⟩ | ⟨token, next, shorter, token', next', shorter', hc, hd, htoken, hnext⟩
  · rw [hc, hd]
    exact alike_fail (fault_unexpected h)
  · rw [hc, hd]
    simp only [Token.kind_of_unplaced htoken]
    cases Operator.ofKind? token'.kind with
    | none => exact alike_fail (fault_unexpected h)
    | some operator =>
      refine (expr_alike power next next' hnext).bind fun right _ _ right' _ _ hright hlast => ?_
      exact .pure (congrArg₂ (Expr.binary operator · · none default) hleft hright) hlast
termination_by 2 * c.remaining

theorem member_alike (receiver receiver' : Expr) (c d : Cursor)
    (hreceiver : receiver.unplaced = receiver'.unplaced) (h : c.unplaced = d.unplaced) :
    Alike Expr.unplaced (member receiver c) (member receiver' d) := by
  rw [member, member]
  rcases take?_cases h with
    ⟨hc, hd⟩ | ⟨token, next, shorter, token', next', shorter', hc, hd, htoken, hnext⟩
  · rw [hc, hd]
    exact alike_fail (fault_unexpected h)
  · rw [hc, hd]
    refine (expectFor_alike hnext .identifier _).bind fun name mid _ name' mid' _ hname hmid => ?_
    have hvalue := Token.value_of_unplaced hname
    change Alike _ (if mid.kind = .openParen then _ else _)
      (if mid'.kind = .openParen then _ else _)
    simp only [kind_alike hmid]
    refine .ite (fun _ => ?_) fun _ => ?_
    · refine (arguments_alike mid mid' hmid).bind fun es _ _ es' _ _ hes hlast => ?_
      refine .pure ?_ hlast
      change Expr.methodCall _ _ (Expr.allUnplaced es) none _ =
        Expr.methodCall _ _ (Expr.allUnplaced es') none _
      rw [hreceiver, hes, hvalue]
    · exact .pure (congrArg₂ (Expr.member · · none default) hreceiver hvalue) hmid
termination_by 2 * c.remaining

/-- Arguments are the same in number, and each is the same. -/
theorem arguments_alike (c d : Cursor) (h : c.unplaced = d.unplaced) :
    Alike Expr.allUnplaced (arguments c) (arguments d) := by
  rw [arguments, arguments]
  refine (expect_alike h .openParen).bind fun _ next _ _ next' _ _ hnext => ?_
  change Alike _ (if next.kind = .closeParen then _ else _)
    (if next'.kind = .closeParen then _ else _)
  simp only [kind_alike hnext]
  refine .ite (fun _ => ?_) fun _ => ?_
  · refine (expect_alike hnext .closeParen).bind fun _ _ _ _ _ _ _ hlast => ?_
    exact .pure rfl hlast
  · refine (expr_alike .default next next' hnext).bind
      fun first mid _ first' mid' _ hfirst hmid => ?_
    refine (moreArguments_alike mid mid' hmid).bind
      fun others last _ others' last' _ hothers hlast => ?_
    refine (expectFor_alike hlast .closeParen _).bind fun _ _ _ _ _ _ _ hbehind => ?_
    exact .pure (congrArg₂ List.cons hfirst hothers) hbehind
termination_by 2 * c.remaining

theorem moreArguments_alike (c d : Cursor) (h : c.unplaced = d.unplaced) :
    Alike Expr.allUnplaced (moreArguments c) (moreArguments d) := by
  rw [moreArguments, moreArguments]
  simp only [kind_alike h]
  refine .ite (fun _ => ?_) fun _ => .pure rfl h
  refine (expect_alike h .comma).bind fun _ next _ _ next' _ _ hnext => ?_
  refine (expr_alike .default next next' hnext).bind fun first mid _ first' mid' _ hfirst hmid => ?_
  refine (moreArguments_alike mid mid' hmid).bind
    fun others last _ others' last' _ hothers hlast => ?_
  exact .pure (congrArg₂ List.cons hfirst hothers) hlast
termination_by 2 * c.remaining

end

/-! ## Statements -/

theorem typeMark_alike (h : c.unplaced = d.unplaced) (message : String) :
    Alike id (c.typeMark message) (d.typeMark message) := by
  rw [typeMark, typeMark]
  simp only [kind_alike h]
  refine .ite (fun _ => ?_) fun _ => .pure rfl h
  refine (expect_alike h .colon).bind fun _ _ _ _ _ _ _ hnext => ?_
  refine (expectName_alike hnext message).bind fun _ _ _ _ _ _ hname hlast => ?_
  exact .pure (congrArg some hname) hlast

theorem firstValue_alike (h : c.unplaced = d.unplaced) :
    Alike (Option.map Expr.unplaced) c.firstValue d.firstValue := by
  rw [firstValue, firstValue]
  simp only [kind_alike h]
  refine .ite (fun _ => ?_) fun _ => .pure rfl h
  refine (expect_alike h .assignment).bind fun _ _ _ _ _ _ _ hnext => ?_
  refine (expr_alike .default _ _ hnext).bind fun _ _ _ _ _ _ hvalue hlast => ?_
  exact .pure (congrArg some hvalue) hlast

theorem declaration_alike (h : c.unplaced = d.unplaced) :
    Alike Stmt.unplaced c.declaration d.declaration := by
  rw [declaration, declaration]
  refine (expect_alike h .letWord).bind fun _ _ _ _ _ _ _ h => ?_
  refine (expectName_alike h _).bind fun n _ _ n' _ _ hn h => ?_
  refine (typeMark_alike h _).bind fun typeName _ _ typeName' _ _ htype h => ?_
  refine (firstValue_alike h).bind fun value _ _ value' _ _ hvalue h => ?_
  refine (expect_alike h .semicolon).bind fun _ _ _ _ _ _ _ h => ?_
  obtain rfl : n = n' := hn
  obtain rfl : typeName = typeName' := htype
  exact .pure (congrArg (Stmt.declaration n typeName · none default) hvalue) h

theorem returns_alike (h : c.unplaced = d.unplaced) :
    Alike Stmt.unplaced c.returns d.returns := by
  rw [returns, returns]
  refine (expect_alike h .returnWord).bind fun _ _ _ _ _ _ _ h => ?_
  refine (expr_alike .default _ _ h).bind fun _ _ _ _ _ _ hvalue h => ?_
  refine (expect_alike h .semicolon).bind fun _ _ _ _ _ _ _ h => ?_
  exact .pure (congrArg (Stmt.returns · default) hvalue) h

/-- Behind the same expression comes the same assignment, or none. -/
theorem expressionOrAssignment_alike (h : c.unplaced = d.unplaced) :
    Alike Stmt.unplaced c.expressionOrAssignment d.expressionOrAssignment := by
  rw [expressionOrAssignment, expressionOrAssignment]
  refine (expr_alike .default c d h).bind fun target _ _ target' _ _ htarget h => ?_
  refine (firstValue_alike h).bind fun value _ _ value' _ _ hvalue h => ?_
  refine (expect_alike h .semicolon).bind fun _ _ _ _ _ _ _ h => ?_
  cases value with
  | none =>
    obtain rfl : value' = none := Option.map_eq_none_iff.mp hvalue.symm
    exact .pure (congrArg (Stmt.expression · default) htarget) h
  | some value =>
    cases value' with
    | none => cases hvalue
    | some value' =>
      exact .pure (congrArg₂ (Stmt.assignment · · default) htarget (Option.some.inj hvalue)) h

mutual

/-- Statements are read alike, by the kind of the token that both cursors have in front. -/
theorem stmt_alike (c d : Cursor) (h : c.unplaced = d.unplaced) :
    Alike Stmt.unplaced (stmt c) (stmt d) := by
  rw [stmt, stmt, kind_alike h]
  split
  · exact declaration_alike h
  · exact conditional_alike c d h
  · exact forEach_alike c d h
  · exact whileLoop_alike c d h
  · exact returns_alike h
  · exact expressionOrAssignment_alike h
termination_by 3 * c.remaining + 1

/-- Blocks end at the same one of their closing words. -/
theorem block_alike (closers : List Kind) (c d : Cursor) (h : c.unplaced = d.unplaced) :
    Alike Stmt.allUnplaced (block closers c) (block closers d) := by
  rw [block, block]
  simp only [kind_alike h, hasTokens]
  refine .ite (fun _ => .pure rfl h) fun _ => .ite (fun _ => ?_) fun _ => ?_
  · refine (stmt_alike c d h).bind fun first mid _ first' mid' _ hfirst hmid => ?_
    refine (block_alike closers mid mid' hmid).bind
      fun others last _ others' last' _ hothers hlast => ?_
    exact .pure (congrArg₂ List.cons hfirst hothers) hlast
  · exact alike_fail (fault_unexpectedFor h _)
termination_by 3 * c.remaining + 2

theorem conditional_alike (c d : Cursor) (h : c.unplaced = d.unplaced) :
    Alike Stmt.unplaced (conditional c) (conditional d) := by
  rw [conditional, conditional]
  refine (expect_alike h .ifWord).bind fun _ _ _ _ _ _ _ h => ?_
  refine (expr_alike .default _ _ h).bind fun condition _ _ condition' _ _ hcondition h => ?_
  refine (expect_alike h .doWord).bind fun _ _ _ _ _ _ _ h => ?_
  refine (block_alike _ _ _ h).bind fun thenBody _ _ thenBody' _ _ hthen h => ?_
  refine (elseBlock_alike _ _ h).bind fun elseBody _ _ elseBody' _ _ helse h => ?_
  refine (expect_alike h .endWord).bind fun _ _ _ _ _ _ _ h => ?_
  refine .pure ?_ h
  change Stmt.conditional condition.unplaced (Stmt.allUnplaced thenBody)
    (Stmt.allUnplaced elseBody) _ = Stmt.conditional condition'.unplaced
      (Stmt.allUnplaced thenBody') (Stmt.allUnplaced elseBody') _
  rw [hcondition, hthen, helse]
termination_by 3 * c.remaining

theorem elseBlock_alike (c d : Cursor) (h : c.unplaced = d.unplaced) :
    Alike Stmt.allUnplaced (elseBlock c) (elseBlock d) := by
  rw [elseBlock, elseBlock]
  simp only [kind_alike h]
  refine .ite (fun _ => ?_) fun _ => .pure rfl h
  refine (expect_alike h .elseWord).bind fun _ _ _ _ _ _ _ h => ?_
  refine (block_alike _ _ _ h).bind fun _ _ _ _ _ _ hbody h => ?_
  exact .pure hbody h
termination_by 3 * c.remaining

theorem forEach_alike (c d : Cursor) (h : c.unplaced = d.unplaced) :
    Alike Stmt.unplaced (forEach c) (forEach d) := by
  rw [forEach, forEach]
  refine (expect_alike h .forWord).bind fun _ _ _ _ _ _ _ h => ?_
  refine (expectName_alike h _).bind fun n _ _ n' _ _ hn h => ?_
  refine (expect_alike h .inWord).bind fun _ _ _ _ _ _ _ h => ?_
  refine (expr_alike .default _ _ h).bind fun items _ _ items' _ _ hitems h => ?_
  refine (expect_alike h .doWord).bind fun _ _ _ _ _ _ _ h => ?_
  refine (block_alike _ _ _ h).bind fun body _ _ body' _ _ hbody h => ?_
  refine (expect_alike h .endWord).bind fun _ _ _ _ _ _ _ h => ?_
  obtain rfl : n = n' := hn
  exact .pure (congrArg₂ (Stmt.forEach n · · default) hitems hbody) h
termination_by 3 * c.remaining

theorem whileLoop_alike (c d : Cursor) (h : c.unplaced = d.unplaced) :
    Alike Stmt.unplaced (whileLoop c) (whileLoop d) := by
  rw [whileLoop, whileLoop]
  refine (expect_alike h .whileWord).bind fun _ _ _ _ _ _ _ h => ?_
  refine (expr_alike .default _ _ h).bind fun condition _ _ condition' _ _ hcondition h => ?_
  refine (expect_alike h .doWord).bind fun _ _ _ _ _ _ _ h => ?_
  refine (block_alike _ _ _ h).bind fun body _ _ body' _ _ hbody h => ?_
  refine (expect_alike h .endWord).bind fun _ _ _ _ _ _ _ h => ?_
  exact .pure (congrArg₂ (Stmt.whileLoop · · default) hcondition hbody) h
termination_by 3 * c.remaining

end

/-! ## Programs -/

theorem field_alike (h : c.unplaced = d.unplaced) : Alike Field.unplaced c.field d.field := by
  rw [field, field]
  refine (expect_alike h .letWord).bind fun _ _ _ _ _ _ _ h => ?_
  refine (expectName_alike h _).bind fun n _ _ n' _ _ hn h => ?_
  refine (expectFor_alike h .colon _).bind fun _ _ _ _ _ _ _ h => ?_
  refine (expectName_alike h _).bind fun typeName _ _ typeName' _ _ htype h => ?_
  refine (firstValue_alike h).bind fun value _ _ value' _ _ hvalue h => ?_
  refine (expect_alike h .semicolon).bind fun _ _ _ _ _ _ _ h => ?_
  obtain rfl : n = n' := hn
  obtain rfl : typeName = typeName' := htype
  exact .pure (congrArg (Field.mk n typeName · none default) hvalue) h

theorem parameters_alike (c d : Cursor) (h : c.unplaced = d.unplaced) :
    Alike id c.parameters d.parameters := by
  rw [parameters, parameters]
  refine (expectName_alike h _).bind fun n _ _ n' _ _ hn h => ?_
  refine (expect_alike h .colon).bind fun _ _ _ _ _ _ _ h => ?_
  refine (expectName_alike h _).bind fun typeName mid _ typeName' mid' _ htype hmid => ?_
  obtain rfl : n = n' := hn
  obtain rfl : typeName = typeName' := htype
  change Alike _ (if mid.kind = .comma then _ else _) (if mid'.kind = .comma then _ else _)
  simp only [kind_alike hmid]
  refine .ite (fun _ => ?_) fun _ => .pure rfl hmid
  refine (expect_alike hmid .comma).bind fun _ _ _ _ _ _ _ h => ?_
  refine (parameters_alike _ _ h).bind fun _ _ _ _ _ _ hothers h => ?_
  exact .pure (congrArg (List.cons _) hothers) h
termination_by c.remaining

theorem parameterList_alike (h : c.unplaced = d.unplaced) :
    Alike id c.parameterList d.parameterList := by
  rw [parameterList, parameterList]
  refine (expect_alike h .openParen).bind fun _ mid _ _ mid' _ _ hmid => ?_
  change Alike _ (if mid.kind = .closeParen then _ else _)
    (if mid'.kind = .closeParen then _ else _)
  simp only [kind_alike hmid]
  refine .ite (fun _ => ?_) fun _ => ?_
  · refine (expect_alike hmid .closeParen).bind fun _ _ _ _ _ _ _ h => ?_
    exact .pure rfl h
  · refine (parameters_alike _ _ hmid).bind fun _ _ _ _ _ _ hlist h => ?_
    refine (expectFor_alike h .closeParen _).bind fun _ _ _ _ _ _ _ h => ?_
    exact .pure hlist h

theorem method_alike (h : c.unplaced = d.unplaced) : Alike Method.unplaced c.method d.method := by
  rw [method, method]
  refine (expect_alike h .defWord).bind fun _ _ _ _ _ _ _ h => ?_
  refine (expectName_alike h _).bind fun n _ _ n' _ _ hn h => ?_
  refine (parameterList_alike h).bind fun list _ _ list' _ _ hlist h => ?_
  refine (typeMark_alike h _).bind fun typeName _ _ typeName' _ _ htype h => ?_
  refine (expect_alike h .doWord).bind fun _ _ _ _ _ _ _ h => ?_
  refine (block_alike _ _ _ h).bind fun body _ _ body' _ _ hbody h => ?_
  refine (expect_alike h .endWord).bind fun _ _ _ _ _ _ _ h => ?_
  obtain rfl : n = n' := hn
  obtain rfl : list = list' := hlist
  obtain rfl : typeName = typeName' := htype
  exact .pure (congrArg (Method.mk n list typeName · none default) hbody) h

theorem methods_alike (c d : Cursor) (h : c.unplaced = d.unplaced) :
    Alike (List.map Method.unplaced) c.methods d.methods := by
  rw [methods, methods]
  simp only [hasTokens, kind_alike h]
  refine .ite (fun _ => ?_) fun _ => .pure rfl h
  split
  · refine (method_alike h).bind fun first _ _ first' _ _ hfirst h => ?_
    refine (methods_alike _ _ h).bind fun _ _ _ _ _ _ hothers h => ?_
    exact .pure (congrArg₂ List.cons hfirst hothers) h
  · exact alike_fail (fault_unexpectedFor h _)
  · exact alike_fail (fault_unexpectedFor h _)
termination_by c.remaining

theorem fields_alike (c d : Cursor) (h : c.unplaced = d.unplaced) :
    Alike (List.map Field.unplaced) c.fields d.fields := by
  rw [fields, fields]
  simp only [kind_alike h]
  refine .ite (fun _ => ?_) fun _ => .pure rfl h
  refine (field_alike h).bind fun first _ _ first' _ _ hfirst h => ?_
  refine (fields_alike _ _ h).bind fun _ _ _ _ _ _ hothers h => ?_
  exact .pure (congrArg₂ List.cons hfirst hothers) h
termination_by c.remaining

/-- Programs are read alike, down to what is left behind them. -/
theorem program_alike (h : c.unplaced = d.unplaced) :
    Alike Program.unplaced c.program d.program := by
  rw [program, program]
  refine (fields_alike c d h).bind fun fields _ _ fields' _ _ hfields h => ?_
  refine (methods_alike _ _ h).bind fun methods _ _ methods' _ _ hmethods h => ?_
  exact .pure (congrArg₂ (Program.mk · · default) hfields hmethods) h

/-- Cursors at the start of tokens differ in places only, even if the files do. -/
theorem ofTokens_unplaced {tokens tokens' : List Token}
    (h : tokens.map Token.unplaced = tokens'.map Token.unplaced) (file file' : String) :
    (ofTokens tokens file).unplaced = (ofTokens tokens' file').unplaced := by
  have hlast : tokens.getLast?.map Token.unplaced = tokens'.getLast?.map Token.unplaced := by
    rw [← List.getLast?_map, ← List.getLast?_map, h]
  have hdrop : tokens.dropLast.map Token.unplaced = tokens'.dropLast.map Token.unplaced := by
    rw [List.map_dropLast, List.map_dropLast, h]
  rw [ofTokens, ofTokens]
  cases hlasts : tokens.getLast? with
  | none =>
    cases hlasts' : tokens'.getLast? with
    | none => rfl
    | some token' =>
      rw [hlasts, hlasts'] at hlast
      cases hlast
  | some token =>
    cases hlasts' : tokens'.getLast? with
    | none =>
      rw [hlasts, hlasts'] at hlast
      cases hlast
    | some token' =>
      rw [hlasts, hlasts'] at hlast
      have htoken := Option.some.inj hlast
      simp only [Token.kind_of_unplaced htoken]
      split
      · exact congrArg₂ Prod.mk hdrop (Token.value_of_unplaced htoken)
      · exact congrArg (·, "EOF") h

end Cursor

/-- From tokens that are the same up to layout the same program is read, up to layout, or there is
the same fault. -/
theorem Program.parse_unplaced {tokens tokens' : List Token}
    (h : tokens.map Token.unplaced = tokens'.map Token.unplaced) (file file' : String) :
    unplacedResult unplaced (parse tokens file) =
      unplacedResult unplaced (parse tokens' file') := by
  have hread := Cursor.program_alike (Cursor.ofTokens_unplaced h file file')
  rw [parse, parse]
  cases hc : (Cursor.ofTokens tokens file).program with
  | ok read =>
    cases hd : (Cursor.ofTokens tokens' file').program with
    | ok read' =>
      rw [hc, hd] at hread
      exact congrArg Except.ok (Prod.mk.inj (Except.ok.inj hread)).1
    | error failure' =>
      rw [hc, hd] at hread
      cases hread
  | error failure =>
    cases hd : (Cursor.ofTokens tokens' file').program with
    | ok read' =>
      rw [hc, hd] at hread
      cases hread
    | error failure' =>
      rw [hc, hd] at hread
      have hfault : failure.diagnostic.fault = failure'.diagnostic.fault := Except.error.inj hread
      simp only [unplacedResult, Diagnostic.unplaced, hfault]

end TeachLang
