import TeachLang.Proofs.Faithful
import TeachLang.Proofs.Nodes
import TeachLang.Proofs.Tiles

/-!
# Spans are hulls

Whoever reads a node starts it where the token in front of the cursor starts, and stops it where the
token behind the cursor stops, when its last token was taken. `Cursor.Spells` follows the tokens
that are taken between two cursors, which are those of the constituents that were read: so the span
of every node is the hull of the tokens that it was read from. A left operand was read before it is
known to be one, and its tokens are the first of those of the whole.

`Program.parse_hulls` says so of all nodes of a program, and that the tokens of the whole program
are all in front of the end of the text.
-/

namespace TeachLang

namespace Cursor

variable {c mid next : Cursor} {token : Token} {tokens behind : List Token}
  {cs ds : List Constituent} {n : Node}

/-! ## Tokens between cursors -/

/-- The tokens between two cursors. None of them ends the text. -/
structure Consumes (c : Cursor) (tokens : List Token) (next : Cursor) : Prop where
  /-- they stand in front of what is ahead then -/
  ahead : c.ahead = tokens ++ next.ahead
  /-- the second cursor knows where the last of them stops -/
  before : next.before = (tokens.getLast?.map (·.span.stop)).getD c.before
  /-- none of them ends the text -/
  kind : ∀ token ∈ tokens, token.kind ≠ .eof

/-- Tokens are taken one after the other. -/
theorem Consumes.trans (h : c.Consumes tokens mid) (hnext : mid.Consumes behind next) :
    c.Consumes (tokens ++ behind) next := by
  refine ⟨?_, ?_, List.forall_mem_append.mpr ⟨h.kind, hnext.kind⟩⟩
  · rw [h.ahead, hnext.ahead, List.append_assoc]
  · rw [hnext.before, h.before, List.getLast?_append]
    cases behind.getLast? <;> rfl

/-- What was taken starts in front of the first cursor and stops in front of the second. -/
theorem Consumes.hull (h : c.Consumes tokens next) (hne : tokens ≠ []) :
    Hull tokens ⟨c.position, next.before⟩ := by
  constructor
  · obtain ⟨first, others, rfl⟩ := List.exists_cons_of_ne_nil hne
    refine ⟨first, rfl, ?_⟩
    rw [position, current, h.ahead]
    rfl
  · have hlast := List.getLast?_eq_some_getLast hne
    refine ⟨tokens.getLast hne, hlast, ?_⟩
    rw [h.before, hlast]
    rfl

/-- A cursor that takes a token consumes it. -/
theorem consumes_of_take? {shorter : next.remaining < c.remaining}
    (h : c.take? = some ⟨token, next, shorter⟩) (hkind : token.kind ≠ .eof) :
    c.Consumes [token] next := by
  obtain ⟨before, ahead, closingValue, closingSpan⟩ := c
  cases ahead with
  | nil => cases h
  | cons first others =>
    cases h
    exact ⟨rfl, rfl, List.forall_mem_singleton.mpr hkind⟩

theorem Consumes.span_eq (h : c.Consumes [token] next) :
    token.span = ⟨c.position, next.before⟩ :=
  (Hull.singleton token).unique (h.hull (List.cons_ne_nil token []))

theorem Consumes.start (h : c.Consumes [token] next) : token.span.start = c.position := by
  rw [h.span_eq]

/-! ## Constituents between cursors -/

/-- The tokens between two cursors are those of constituents. -/
def Spells (c : Cursor) (cs : List Constituent) (next : Cursor) : Prop :=
  ∃ tokens, c.Consumes tokens next ∧ ReadFrom cs tokens

theorem Spells.refl (c : Cursor) : c.Spells [] c := ⟨[], ⟨rfl, rfl, nofun⟩, .nil⟩

/-- Constituents follow each other like the tokens that spell them. -/
theorem Spells.trans (h : c.Spells cs mid) (hnext : mid.Spells ds next) :
    c.Spells (cs ++ ds) next := by
  obtain ⟨tokens, htokens, hread⟩ := h
  obtain ⟨behind, hbehind, hnext⟩ := hnext
  exact ⟨_, htokens.trans hbehind, hread.append hnext⟩

/-- A token spells the constituent that admits it. -/
theorem Consumes.spells (h : c.Consumes [token] next) {part : Constituent}
    (hadmits : part.Admits token) : c.Spells [part] next :=
  ⟨[token], h, .token hadmits .nil⟩

/-- A token that is not there was left out. -/
theorem Spells.skipped (c : Cursor) (kind : Kind) : c.Spells [.optional kind] c :=
  ⟨[], ⟨rfl, rfl, nofun⟩, .skipped .nil⟩

theorem Consumes.word {kind : Kind} (h : c.Consumes [token] next) (hkind : token.kind = kind) :
    c.Spells [.word kind] next :=
  h.spells hkind

theorem Consumes.optional {kind : Kind} (h : c.Consumes [token] next)
    (hkind : token.kind = kind) : c.Spells [.optional kind] next :=
  h.spells hkind

theorem Consumes.named (h : c.Consumes [token] next) (hkind : token.kind = .identifier) :
    c.Spells [.named token.value] next :=
  h.spells ⟨hkind, rfl⟩

/-- What was read is a node if it has the form of one and the node the span of what was read. -/
theorem Spells.node (h : c.Spells n.form next) (hspan : n.span = ⟨c.position, next.before⟩) :
    c.Spells [.node n] next := by
  obtain ⟨tokens, htokens, hread⟩ := h
  have hhull := htokens.hull (hread.ne_nil n.exists_isToken)
  rw [← hspan] at hhull
  exact ⟨tokens ++ [], by rwa [List.append_nil], .node hread hhull .nil⟩

/-- A node that was read spans from where reading it began to the end of its last token. -/
theorem Spells.span_eq (h : c.Spells [.node n] next) : n.span = ⟨c.position, next.before⟩ := by
  obtain ⟨tokens, htokens, hread⟩ := h
  cases hread with
  | token hadmits => exact hadmits.elim
  | node hform hhull hrest =>
    cases hrest
    rw [List.append_nil] at htokens
    exact hhull.unique (htokens.hull (hform.ne_nil n.exists_isToken))

theorem Spells.start {e : Expr} (h : c.Spells [.node (.expr e)] next) :
    e.span.start = c.position := by
  change (Node.expr e).span.start = _
  rw [h.span_eq]

theorem Spells.stop {e : Expr} (h : c.Spells [.node (.expr e)] next) :
    e.span.stop = next.before := by
  change (Node.expr e).span.stop = _
  rw [h.span_eq]

/-! ## Words -/

/-- The token that was asked for is consumed. -/
theorem expectOr_spells (c : Cursor) {kind : Kind} (hkind : kind ≠ .eof) (diagnostic : Diagnostic) :
    Finds (c.expectOr kind diagnostic) fun token next =>
      c.Consumes [token] next ∧ token.kind = kind := by
  rw [expectOr]
  split
  · next found htake =>
    obtain ⟨token, next, shorter⟩ := found
    split
    · next hfound =>
      rintro _ ⟨⟩
      exact ⟨consumes_of_take? htake (hfound ▸ hkind), hfound⟩
    · exact .fail _
  · exact .fail _

theorem expect_spells (c : Cursor) {kind : Kind} (hkind : kind ≠ .eof) :
    Finds (c.expect kind) fun token next =>
      c.Spells [.word kind] next ∧ token.span.start = c.position :=
  (expectOr_spells c hkind _).mono fun _ _ h => ⟨h.1.spells h.2, h.1.start⟩

theorem expectFor_spells (c : Cursor) {kind : Kind} (hkind : kind ≠ .eof) (message : String) :
    Finds (c.expectFor kind message) fun _ next => c.Spells [.word kind] next :=
  (expectOr_spells c hkind _).mono fun _ _ h => h.1.spells h.2

theorem expectName_spells (c : Cursor) (message : String) :
    Finds (c.expectName message) fun x next => c.Spells [.named x] next := by
  rw [expectName]
  refine (expectOr_spells c (by decide : Kind.identifier ≠ .eof) _).bind fun token next _ h => ?_
  exact .pure (h.1.spells ⟨h.2, rfl⟩)

/-! ## Expressions -/

/-- A literal is a node of one token. -/
theorem literal_spells (c : Cursor) :
    Finds c.literal fun e next => c.Spells [.node (.expr e)] next := by
  rw [literal]
  split
  · exact .fail _
  · next token next shorter htake =>
    split
    · next value hvalue =>
      have hkind : token.kind ≠ .eof := by
        intro heof
        rw [Token.literal, heof] at hvalue
        cases hvalue
      have htoken := consumes_of_take? htake hkind
      rintro _ ⟨⟩
      exact .node (htoken.spells hvalue) htoken.span_eq
    · exact .fail _

mutual

/-- An expression is read with its hull. -/
theorem expr_spells (p : Power) (c : Cursor) :
    Finds (expr p c) fun e next => c.Spells [.node (.expr e)] next := by
  rw [expr]
  refine (operand_spells c).bind fun left next shorter hleft => ?_
  exact (operators_spells p c left next hleft).bind fun whole last shorter hwhole => .pure hwhole
termination_by 2 * c.remaining + 1

theorem operand_spells (c : Cursor) :
    Finds (operand c) fun e next => c.Spells [.node (.expr e)] next := by
  rw [operand]
  split
  · exact .fail _
  · next token next shorter htake =>
    split
    · next hkind =>
      have htoken := consumes_of_take? htake (by rw [hkind]; decide)
      have hname := htoken.named hkind
      split
      · refine (arguments_spells next).bind fun es last shorter' hes => ?_
        exact .pure (.node (hname.trans hes) (congrArg (Span.mk · last.before) htoken.start))
      · exact .pure (.node hname htoken.span_eq)
    · next hkind =>
      have htoken := consumes_of_take? htake (by rw [hkind]; decide)
      refine (expr_spells .default next).bind fun inner mid shorter' hinner => ?_
      refine (expectFor_spells mid (by decide : Kind.closeParen ≠ .eof) _).bind
        fun _ last shorter'' hclose => ?_
      have hform := ((htoken.word hkind).trans hinner).trans hclose
      exact .pure (.node hform (congrArg (Span.mk · last.before) htoken.start))
    · split
      · exact literal_spells c
      · exact .fail _
termination_by 2 * c.remaining

/-- The tokens of a left operand are the first of those of the operator. -/
theorem operators_spells (p : Power) (start : Cursor) (left : Expr) (c : Cursor)
    (hleft : start.Spells [.node (.expr left)] c) :
    Finds (operators p left c) fun e next => start.Spells [.node (.expr e)] next := by
  rw [operators]
  split
  · split
    · next hdot =>
      refine (member_spells start left c hleft hdot).bind fun left' next shorter hleft' => ?_
      exact (operators_spells p start left' next hleft').bind fun whole last shorter hwhole =>
        .pure hwhole
    · split
      · refine (binary_spells c.kind.power start left c hleft).bind
          fun left' next shorter hleft' => ?_
        exact (operators_spells p start left' next hleft').bind fun whole last shorter hwhole =>
          .pure hwhole
      · exact .fail _
  · exact .pure hleft
termination_by 2 * c.remaining + 1

/-- The node of an operator begins where its left operand does, before the cursor. -/
theorem binary_spells (p : Power) (start : Cursor) (left : Expr) (c : Cursor)
    (hleft : start.Spells [.node (.expr left)] c) :
    Finds (binary p left c) fun e next => start.Spells [.node (.expr e)] next := by
  rw [binary]
  split
  · exact .fail _
  · next token next shorter htake =>
    split
    · exact .fail _
    · next op hop =>
      have htoken := consumes_of_take? htake (by rintro heof; rw [heof] at hop; cases hop)
      have hoperator : c.Spells [.operator op] next := htoken.spells hop
      refine (expr_spells p next).bind fun right last shorter' hright => ?_
      refine .pure (.node ((hleft.trans hoperator).trans hright) ?_)
      exact congrArg₂ Span.mk hleft.start hright.stop
termination_by 2 * c.remaining

/-- So does that of a member with its receiver. -/
theorem member_spells (start : Cursor) (receiver : Expr) (c : Cursor)
    (hreceiver : start.Spells [.node (.expr receiver)] c) (hdot : c.kind = .dot) :
    Finds (member receiver c) fun e next => start.Spells [.node (.expr e)] next := by
  rw [member]
  split
  · exact .fail _
  · next token next shorter htake =>
    have hkind : token.kind = .dot := (kind_of_ahead (ahead_of_take? htake)).symm.trans hdot
    have hbegin := hreceiver.trans ((consumes_of_take? htake (by rw [hkind]; decide)).word hkind)
    refine (expectOr_spells next (by decide : Kind.identifier ≠ .eof) _).bind
      fun x mid shorter' hx => ?_
    have hname := hbegin.trans (hx.1.named hx.2)
    change Finds (if mid.kind = .openParen then _ else _) _
    split
    · refine (arguments_spells mid).bind fun es last shorter'' hes => ?_
      exact .pure (.node (hname.trans hes) (congrArg (Span.mk · last.before) hreceiver.start))
    · exact .pure (.node hname (congrArg₂ Span.mk hreceiver.start (by rw [hx.1.span_eq])))
termination_by 2 * c.remaining

theorem arguments_spells (c : Cursor) :
    Finds (arguments c) fun es next => c.Spells (Constituent.arguments es) next := by
  rw [arguments]
  refine (expect_spells c (by decide : Kind.openParen ≠ .eof)).bind fun _ next shorter hopen => ?_
  change Finds (if next.kind = .closeParen then _ else _) _
  split
  · refine (expect_spells next (by decide : Kind.closeParen ≠ .eof)).bind
      fun _ last shorter' hclose => ?_
    exact .pure (hopen.1.trans hclose.1)
  · refine (expr_spells .default next).bind fun first mid shorter' hfirst => ?_
    refine (moreArguments_spells mid).bind fun others late shorter'' hothers => ?_
    refine (expectFor_spells late (by decide : Kind.closeParen ≠ .eof) _).bind
      fun _ last shorter''' hclose => ?_
    exact .pure ((hopen.1.trans hfirst).trans (hothers.trans hclose))
termination_by 2 * c.remaining

theorem moreArguments_spells (c : Cursor) :
    Finds (moreArguments c) fun es next => c.Spells (Constituent.moreArguments es) next := by
  rw [moreArguments]
  split
  · refine (expect_spells c (by decide : Kind.comma ≠ .eof)).bind fun _ next shorter hcomma => ?_
    refine (expr_spells .default next).bind fun first mid shorter' hfirst => ?_
    refine (moreArguments_spells mid).bind fun others last shorter'' hothers => ?_
    exact .pure ((hcomma.1.trans hfirst).trans hothers)
  · exact .pure (.refl c)
termination_by 2 * c.remaining

end

/-! ## Statements -/

theorem typeMark_spells (c : Cursor) (message : String) :
    Finds (c.typeMark message) fun typeName next =>
      c.Spells (Constituent.typeMark typeName) next := by
  rw [typeMark]
  split
  · refine (expect_spells c (by decide : Kind.colon ≠ .eof)).bind fun _ mid _ hcolon => ?_
    refine (expectName_spells mid _).bind fun typeName last _ hname => ?_
    exact .pure (hcolon.1.trans hname)
  · exact .pure (.refl c)

theorem firstValue_spells (c : Cursor) :
    Finds c.firstValue fun value next => c.Spells (Constituent.firstValue value) next := by
  rw [firstValue]
  split
  · refine (expect_spells c (by decide : Kind.assignment ≠ .eof)).bind fun _ mid _ hsign => ?_
    refine (expr_spells .default mid).bind fun value last _ hvalue => ?_
    exact .pure (hsign.1.trans hvalue)
  · exact .pure (.refl c)

theorem declaration_spells (c : Cursor) :
    Finds c.declaration fun s next => c.Spells [.node (.stmt s)] next := by
  rw [declaration]
  refine (expect_spells c (by decide : Kind.letWord ≠ .eof)).bind fun word c₁ _ hword => ?_
  refine (expectName_spells c₁ _).bind fun x c₂ _ hx => ?_
  refine (typeMark_spells c₂ _).bind fun typeName c₃ _ htype => ?_
  refine (firstValue_spells c₃).bind fun value c₄ _ hvalue => ?_
  refine (expect_spells c₄ (by decide : Kind.semicolon ≠ .eof)).bind fun _ last _ hclose => ?_
  have hform := (hword.1.trans hx).trans (htype.trans (hvalue.trans hclose.1))
  exact .pure (.node hform (congrArg (Span.mk · last.before) hword.2))

theorem returns_spells (c : Cursor) :
    Finds c.returns fun s next => c.Spells [.node (.stmt s)] next := by
  rw [returns]
  refine (expect_spells c (by decide : Kind.returnWord ≠ .eof)).bind fun word c₁ _ hword => ?_
  refine (expr_spells .default c₁).bind fun value c₂ _ hvalue => ?_
  refine (expect_spells c₂ (by decide : Kind.semicolon ≠ .eof)).bind fun _ last _ hclose => ?_
  have hform := (hword.1.trans hvalue).trans hclose.1
  exact .pure (.node hform (congrArg (Span.mk · last.before) hword.2))

theorem expressionOrAssignment_spells (c : Cursor) :
    Finds c.expressionOrAssignment fun s next => c.Spells [.node (.stmt s)] next := by
  rw [expressionOrAssignment]
  refine (expr_spells .default c).bind fun target c₁ _ htarget => ?_
  refine (firstValue_spells c₁).bind fun value c₂ _ hvalue => ?_
  refine (expect_spells c₂ (by decide : Kind.semicolon ≠ .eof)).bind fun _ last _ hclose => ?_
  have hform := htarget.trans (hvalue.trans hclose.1)
  cases value with
  | none => exact .pure (.node hform rfl)
  | some value => exact .pure (.node hform rfl)

mutual

/-- A statement is a node that is spelled by its form. -/
theorem stmt_spells (c : Cursor) :
    Finds (stmt c) fun s next => c.Spells [.node (.stmt s)] next := by
  rw [stmt]
  split
  · exact declaration_spells c
  · exact conditional_spells c
  · exact forEach_spells c
  · exact whileLoop_spells c
  · exact returns_spells c
  · exact expressionOrAssignment_spells c
termination_by 3 * c.remaining + 1

/-- The statements of a block are constituents of what the block is part of. -/
theorem block_spells (closers : List Kind) (c : Cursor) :
    Finds (block closers c) fun body next => c.Spells (Constituent.stmts body) next := by
  rw [block]
  split
  · exact .pure (.refl c)
  · split
    · refine (stmt_spells c).bind fun first next shorter hfirst => ?_
      refine (block_spells closers next).bind fun others last shorter' hothers => ?_
      exact .pure (hfirst.trans hothers)
    · exact .fail _
termination_by 3 * c.remaining + 2

theorem conditional_spells (c : Cursor) :
    Finds (conditional c) fun s next => c.Spells [.node (.stmt s)] next := by
  rw [conditional]
  refine (expect_spells c (by decide : Kind.ifWord ≠ .eof)).bind fun word c₁ h₁ hword => ?_
  refine (expr_spells .default c₁).bind fun condition c₂ h₂ hcondition => ?_
  refine (expect_spells c₂ (by decide : Kind.doWord ≠ .eof)).bind fun _ c₃ h₃ hdo => ?_
  refine (block_spells [.elseWord, .endWord] c₃).bind fun thenBody c₄ h₄ hthen => ?_
  refine (elseBlock_spells c₄).bind fun elseBody c₅ h₅ helse => ?_
  refine (expect_spells c₅ (by decide : Kind.endWord ≠ .eof)).bind fun _ last _ hend => ?_
  have hform := ((hword.1.trans hcondition).trans hdo.1).trans (hthen.trans (helse.trans hend.1))
  exact .pure (.node hform (congrArg (Span.mk · last.before) hword.2))
termination_by 3 * c.remaining

/-- The word in front of an empty second body is one that could have been left out. -/
theorem elseBlock_spells (c : Cursor) :
    Finds (elseBlock c) fun body next => c.Spells (Constituent.elseBody body) next := by
  rw [elseBlock]
  split
  · refine (expectOr_spells c (by decide : Kind.elseWord ≠ .eof) _).bind fun word c₁ h₁ hword => ?_
    refine (block_spells [.endWord] c₁).bind fun body last _ hbody => ?_
    cases body with
    | nil => exact .pure ((hword.1.optional hword.2).trans hbody)
    | cons first others => exact .pure ((hword.1.word hword.2).trans hbody)
  · exact .pure (.skipped c .elseWord)
termination_by 3 * c.remaining

theorem forEach_spells (c : Cursor) :
    Finds (forEach c) fun s next => c.Spells [.node (.stmt s)] next := by
  rw [forEach]
  refine (expect_spells c (by decide : Kind.forWord ≠ .eof)).bind fun word c₁ h₁ hword => ?_
  refine (expectName_spells c₁ _).bind fun x c₂ h₂ hx => ?_
  refine (expect_spells c₂ (by decide : Kind.inWord ≠ .eof)).bind fun _ c₃ h₃ hin => ?_
  refine (expr_spells .default c₃).bind fun items c₄ h₄ hitems => ?_
  refine (expect_spells c₄ (by decide : Kind.doWord ≠ .eof)).bind fun _ c₅ h₅ hdo => ?_
  refine (block_spells [.endWord] c₅).bind fun body c₆ h₆ hbody => ?_
  refine (expect_spells c₆ (by decide : Kind.endWord ≠ .eof)).bind fun _ last _ hend => ?_
  have hhead := (((hword.1.trans hx).trans hin.1).trans hitems).trans hdo.1
  have hform := hhead.trans (hbody.trans hend.1)
  exact .pure (.node hform (congrArg (Span.mk · last.before) hword.2))
termination_by 3 * c.remaining

theorem whileLoop_spells (c : Cursor) :
    Finds (whileLoop c) fun s next => c.Spells [.node (.stmt s)] next := by
  rw [whileLoop]
  refine (expect_spells c (by decide : Kind.whileWord ≠ .eof)).bind fun word c₁ h₁ hword => ?_
  refine (expr_spells .default c₁).bind fun condition c₂ h₂ hcondition => ?_
  refine (expect_spells c₂ (by decide : Kind.doWord ≠ .eof)).bind fun _ c₃ h₃ hdo => ?_
  refine (block_spells [.endWord] c₃).bind fun body c₄ h₄ hbody => ?_
  refine (expect_spells c₄ (by decide : Kind.endWord ≠ .eof)).bind fun _ last _ hend => ?_
  have hform := ((hword.1.trans hcondition).trans hdo.1).trans (hbody.trans hend.1)
  exact .pure (.node hform (congrArg (Span.mk · last.before) hword.2))
termination_by 3 * c.remaining

end

/-! ## Programs -/

theorem field_spells (c : Cursor) :
    Finds c.field fun f next => c.Spells [.node (.field f)] next := by
  rw [field]
  refine (expect_spells c (by decide : Kind.letWord ≠ .eof)).bind fun word c₁ _ hword => ?_
  refine (expectName_spells c₁ _).bind fun x c₂ _ hx => ?_
  refine (expectFor_spells c₂ (by decide : Kind.colon ≠ .eof) _).bind fun _ c₃ _ hcolon => ?_
  refine (expectName_spells c₃ _).bind fun typeName c₄ _ htype => ?_
  refine (firstValue_spells c₄).bind fun value c₅ _ hvalue => ?_
  refine (expect_spells c₅ (by decide : Kind.semicolon ≠ .eof)).bind fun _ last _ hclose => ?_
  have hhead := ((hword.1.trans hx).trans hcolon).trans htype
  have hform := hhead.trans (hvalue.trans hclose.1)
  exact .pure (.node hform (congrArg (Span.mk · last.before) hword.2))

/-- Parameters are words with commas between them, and no nodes. -/
theorem parameters_spells (c : Cursor) :
    Finds (parameters c) fun list next =>
      c.Spells (Constituent.parameters list) next ∧ list ≠ [] := by
  rw [parameters]
  refine (expectName_spells c _).bind fun x c₁ h₁ hx => ?_
  refine (expect_spells c₁ (by decide : Kind.colon ≠ .eof)).bind fun _ c₂ h₂ hcolon => ?_
  refine (expectName_spells c₂ _).bind fun typeName c₃ h₃ htype => ?_
  have hfirst := (hx.trans hcolon.1).trans htype
  change Finds (if c₃.kind = .comma then _ else _) _
  split
  · refine (expect_spells c₃ (by decide : Kind.comma ≠ .eof)).bind fun _ c₄ h₄ hcomma => ?_
    refine (parameters_spells c₄).bind fun others last _ hothers => ?_
    obtain ⟨second, others, rfl⟩ := List.exists_cons_of_ne_nil hothers.2
    exact .pure ⟨(hfirst.trans hcomma.1).trans hothers.1, List.cons_ne_nil _ _⟩
  · exact .pure ⟨hfirst, List.cons_ne_nil _ _⟩
termination_by c.remaining

theorem parameterList_spells (c : Cursor) :
    Finds c.parameterList fun list next => c.Spells (Constituent.parameterList list) next := by
  rw [parameterList]
  refine (expect_spells c (by decide : Kind.openParen ≠ .eof)).bind fun _ c₁ _ hopen => ?_
  change Finds (if c₁.kind = .closeParen then _ else _) _
  split
  · refine (expect_spells c₁ (by decide : Kind.closeParen ≠ .eof)).bind fun _ last _ hclose => ?_
    exact .pure (hopen.1.trans hclose.1)
  · refine (parameters_spells c₁).bind fun list c₂ _ hlist => ?_
    refine (expectFor_spells c₂ (by decide : Kind.closeParen ≠ .eof) _).bind
      fun _ last _ hclose => ?_
    exact .pure (hopen.1.trans (hlist.1.trans hclose))

/-- A method is a node from its `DEF` to its `END`. -/
theorem method_spells (c : Cursor) :
    Finds c.method fun m next => c.Spells [.node (.method m)] next := by
  rw [method]
  refine (expect_spells c (by decide : Kind.defWord ≠ .eof)).bind fun word c₁ _ hword => ?_
  refine (expectName_spells c₁ _).bind fun x c₂ _ hx => ?_
  refine (parameterList_spells c₂).bind fun list c₃ _ hlist => ?_
  refine (typeMark_spells c₃ _).bind fun result c₄ _ hresult => ?_
  refine (expect_spells c₄ (by decide : Kind.doWord ≠ .eof)).bind fun _ c₅ _ hdo => ?_
  refine (block_spells [.endWord] c₅).bind fun body c₆ _ hbody => ?_
  refine (expect_spells c₆ (by decide : Kind.endWord ≠ .eof)).bind fun _ last _ hend => ?_
  have htail := hresult.trans (hdo.1.trans (hbody.trans hend.1))
  have hform := (hword.1.trans hx).trans (hlist.trans htail)
  exact .pure (.node hform (congrArg (Span.mk · last.before) hword.2))

theorem fields_spells (c : Cursor) :
    Finds (fields c) fun fs next => c.Spells ((fs.map Node.field).map .node) next := by
  rw [fields]
  split
  · refine (field_spells c).bind fun first next shorter hfirst => ?_
    refine (fields_spells next).bind fun others last _ hothers => ?_
    exact .pure (hfirst.trans hothers)
  · exact .pure (.refl c)
termination_by c.remaining

/-- Methods are read up to the end of the text. -/
theorem methods_spells (c : Cursor) :
    Finds (methods c) fun ms next =>
      c.Spells ((ms.map Node.method).map .node) next ∧ next.kind = .eof := by
  rw [methods]
  split
  · split
    · refine (method_spells c).bind fun first next shorter hfirst => ?_
      refine (methods_spells next).bind fun others last _ hothers => ?_
      exact .pure ⟨hfirst.trans hothers.1, hothers.2⟩
    · exact .fail _
    · exact .fail _
  · next hend => exact .pure ⟨.refl c, by simpa [hasTokens] using hend⟩
termination_by c.remaining

/-- A whole program is read up to the end of the text. -/
theorem program_spells (c : Cursor) :
    Finds (program c) fun p next => c.Spells (p.children.map .node) next ∧ next.kind = .eof ∧
      p.span = ⟨c.before, next.before⟩ := by
  rw [program]
  refine (fields_spells c).bind fun fs mid _ hfields => ?_
  refine (methods_spells mid).bind fun ms last _ hmethods => ?_
  refine .pure ⟨?_, hmethods.2, rfl⟩
  rw [Program.children, List.map_append]
  exact hfields.trans hmethods.1

/-- Tokens that were taken up to the end of the text are all in front of it. -/
theorem Consumes.eq_takeWhile (h : c.Consumes tokens next) (hnext : next.kind = .eof) :
    tokens = c.ahead.takeWhile (·.kind != .eof) := by
  rw [h.ahead, List.takeWhile_append_of_pos fun token htoken => by simpa using h.kind token htoken]
  rw [Cursor.kind, current] at hnext
  cases hahead : next.ahead with
  | nil => simp
  | cons token others =>
    rw [hahead] at hnext
    have hend : token.kind = .eof := hnext
    simp [hend]

theorem before_ofTokens (tokens : List Token) (file : String) :
    (ofTokens tokens file).before = ⟨0, file⟩ := by
  rw [ofTokens]
  split
  · split <;> rfl
  · rfl

/-- Up to the end, the tokens ahead of a cursor at the start are those given. -/
theorem takeWhile_ofTokens (tokens : List Token) (file : String) :
    (ofTokens tokens file).ahead.takeWhile (·.kind != .eof) =
      tokens.takeWhile (·.kind != .eof) := by
  rw [ofTokens]
  split
  · next last hlast =>
    obtain ⟨others, rfl⟩ := List.getLast?_eq_some_iff.mp hlast
    split
    · next hend =>
      -- the last token is not taken, whether those in front of it are all taken or not
      rw [List.takeWhile_append, List.dropLast_concat]
      split
      · next hall =>
        have hothers := (List.takeWhile_prefix _).eq_of_length hall
        rw [hothers]
        simp [hend]
      · rfl
    · rfl
  · next hnone =>
    obtain rfl := List.getLast?_eq_none_iff.mp hnone
    rfl

end Cursor

/-! ## Nodes of a program -/

namespace Program

/-- How the nodes of a program lie in the tokens that it was read from. -/
structure HasHulls (p : Program) (tokens : List Token) (file : String) : Prop where
  /-- the program starts with the text and stops where its last token stops -/
  whole : p.span = ⟨⟨0, file⟩, (tokens.getLast?.map (·.span.stop)).getD ⟨0, file⟩⟩
  /-- the tokens are those of its fields and methods -/
  read : ReadFrom (p.children.map .node) tokens
  /-- every node has the hull of its tokens as its span -/
  node : ∀ n, p.Has n → ∃ own, own <:+: tokens ∧ ReadFrom n.form own ∧ Hull own n.span
  /-- if the tokens stand one after another, so do fields and methods, in the program -/
  outer : InOrder tokens → (∀ child ∈ p.children, p.span.Covers child.span) ∧
    p.children.Pairwise fun a b => a.span.Before b.span
  /-- and so do the nodes right in every node, in that node -/
  inner : InOrder tokens → ∀ n, p.Has n → n.Nested

theorem filterMap_children (p : Program) :
    (p.children.map .node).filterMap Constituent.node? = p.children := by
  rw [List.filterMap_map]
  exact List.filterMap_some

/-- If the nodes of a program were read from tokens, each has its hull among them: a part of a node
was read from a part of the tokens. -/
theorem hasHulls_of_readFrom {p : Program} {tokens : List Token} {file : String}
    (hspan : p.span = ⟨⟨0, file⟩, (tokens.getLast?.map (·.span.stop)).getD ⟨0, file⟩⟩)
    (hread : ReadFrom (p.children.map .node) tokens) : p.HasHulls tokens file := by
  have hchild : ∀ child ∈ p.children, ∃ own, own <:+: tokens ∧ ReadFrom child.form own ∧
      Hull own child.span := by
    intro child hchild
    rw [← p.filterMap_children] at hchild
    exact hread.exists_own hchild
  have hnode : ∀ n, p.Has n → ∃ own, own <:+: tokens ∧ ReadFrom n.form own ∧ Hull own n.span := by
    rintro n ⟨child, hmem, hinside⟩
    obtain ⟨own, hown, hform, hhull⟩ := hchild child hmem
    obtain ⟨inner, hinner, hread⟩ := hform.exists_inside hhull hinside
    exact ⟨inner, hinner.trans hown, hread⟩
  refine ⟨hspan, hread, hnode, fun horder => ⟨?_, ?_⟩, fun horder n hn => ?_⟩
  · intro child hmem
    obtain ⟨own, hown, -, -, ⟨last, hlast, hstop⟩⟩ := hchild child hmem
    have hlast := hown.subset (List.mem_of_mem_getLast? hlast)
    have hsome := List.getLast?_eq_some_getLast (List.ne_nil_of_mem hlast)
    rw [Span.Covers, hspan, hstop, hsome]
    exact ⟨Nat.zero_le _, horder.le_getLast hsome hlast⟩
  · rw [← p.filterMap_children]
    exact hread.pairwise horder
  · obtain ⟨own, hown, hform, hhull⟩ := hnode n hn
    exact hform.nested hhull (horder.of_isInfix hown)

/-- The span of every node of a program that can be read is the hull of the tokens that it was read
from; the tokens of the program are all those in front of the end of the text. So if the tokens
stand one after another in the text, every node lies in the one that it is in, and those right in
one node stand one after another. -/
theorem parse_hulls {tokens : List Token} {file : String} {p : Program}
    (h : parse tokens file = .ok p) : p.HasHulls (tokens.takeWhile (·.kind != .eof)) file := by
  rw [parse] at h
  split at h
  · next read hread =>
    obtain rfl := Except.ok.inj h
    obtain ⟨⟨taken, hconsumes, hfrom⟩, hend, hspan⟩ :=
      (Cursor.ofTokens tokens file).program_spells read hread
    have htaken := hconsumes.eq_takeWhile hend
    rw [Cursor.takeWhile_ofTokens] at htaken
    rw [← htaken]
    refine hasHulls_of_readFrom ?_ hfrom
    rw [hspan, hconsumes.before, Cursor.before_ofTokens]
  · cases h

/-! ## Tokens of a text -/

/-- The tokens of a text stand one after another, if their places are stored as they are. -/
theorem inOrder_of_tokenize {source file : String} {tokens : List Token}
    (hsize : source.utf8ByteSize < UInt32.size) (h : Token.tokenize source file = .ok tokens) :
    InOrder tokens := by
  obtain ⟨found, rfl, htiling⟩ := Token.tiling_of_tokenize hsize h
  constructor
  · refine List.forall_mem_append.mpr ⟨fun token htoken => ?_, fun token htoken => ?_⟩
    · obtain ⟨-, -, hpos, -⟩ := htiling.lexeme token htoken
      exact Nat.le_of_lt hpos
    · obtain rfl := List.mem_singleton.mp htoken
      exact Nat.le_refl _
  · refine List.pairwise_append.mpr ⟨htiling.ordered, List.pairwise_singleton _ _, ?_⟩
    intro token htoken last hlast
    obtain rfl := List.mem_singleton.mp hlast
    exact (htiling.place token (List.mem_append_left _ htoken)).stop.boundary.le_utf8ByteSize

/-- A program with most kinds of nodes, behind a blank and with an empty second body. -/
def branching : String :=
  " LET n: Integer = 2; DEF main() DO IF n < 3 DO n = (n + 1).x(1, -2); ELSE END RETURN n; END "

theorem branching_hulls : ∃ tokens p, Token.tokenize branching "shell" = .ok tokens ∧
    Program.parse tokens "shell" = .ok p ∧ p.span = ⟨⟨0, "shell"⟩, ⟨91, "shell"⟩⟩ ∧
    InOrder (tokens.takeWhile (·.kind != .eof)) ∧
    p.HasHulls (tokens.takeWhile (·.kind != .eof)) "shell" ∧ ∀ n, p.Has n → n.Nested := by
  have hspan : (do
      let tokens ← (Token.tokenize branching "shell").toOption
      let p ← (Program.parse tokens "shell").toOption
      some p.span) = some ⟨⟨0, "shell"⟩, ⟨91, "shell"⟩⟩ := by decide +kernel
  cases htokens : Token.tokenize branching "shell" with
  | error d =>
    rw [htokens] at hspan
    cases hspan
  | ok tokens =>
    rw [htokens] at hspan
    change (Program.parse tokens "shell").toOption.bind _ = _ at hspan
    cases hp : Program.parse tokens "shell" with
    | error d =>
      rw [hp] at hspan
      cases hspan
    | ok p =>
      rw [hp] at hspan
      have horder : InOrder (tokens.takeWhile (·.kind != .eof)) :=
        (inOrder_of_tokenize (by decide) htokens).of_isInfix (List.takeWhile_prefix _).isInfix
      have hhulls := parse_hulls hp
      exact ⟨tokens, p, rfl, hp, Option.some.inj hspan, horder, hhulls, hhulls.inner horder⟩

end Program

end TeachLang
