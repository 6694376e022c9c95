import TeachLang.Proofs.Places
import TeachLang.Proofs.Slots
import TeachLang.Syntax.ReadProgram

/-!
# The spans of trees

Reading a tree makes up no positions. Each end of a span is the end of a token, or the start of the
file, and so is the position of each fault. So whatever holds of these positions holds of all
positions that come out of reading; it is carried along by the cursor, which `Cursor.On` says for
the tokens in front of it and the place behind it.
-/

namespace TeachLang

/-! ## Trees -/

namespace Expr

mutual

/-- An expression in which the ends of all spans are as described. -/
def On (P : Position → Prop) : Expr → Prop
  | literal _ _ span | name _ _ span => span.On P
  | group inner _ span | member inner _ _ span => inner.On P ∧ span.On P
  | binary _ left right _ span => left.On P ∧ right.On P ∧ span.On P
  | call _ arguments _ span => AllOn P arguments ∧ span.On P
  | methodCall receiver _ arguments _ span => receiver.On P ∧ AllOn P arguments ∧ span.On P

/-- Expressions in which the ends of all spans are as described. -/
def AllOn (P : Position → Prop) : List Expr → Prop
  | [] => True
  | e :: es => e.On P ∧ AllOn P es

end

variable {P : Position → Prop}

/-- The span of an expression is the first that is asked about. -/
theorem On.span : ∀ {e : Expr}, e.On P → e.span.On P
  | literal .., h | name .., h => h
  | group .., h | member .., h | call .., h => h.2
  | binary .., h | methodCall .., h => h.2.2

mutual

/-- The slots of an expression have no spans. -/
theorem on_cleared : ∀ e : Expr, e.cleared.On P ↔ e.On P
  | literal .. | name .. => Iff.rfl
  | group inner .. | member inner .. => and_congr_left' (on_cleared inner)
  | binary _ left right .. =>
    and_congr (on_cleared left) (and_congr_left' (on_cleared right))
  | call _ arguments .. => and_congr_left' (allOn_allCleared arguments)
  | methodCall receiver _ arguments .. =>
    and_congr (on_cleared receiver) (and_congr_left' (allOn_allCleared arguments))

theorem allOn_allCleared : ∀ es : List Expr, AllOn P (allCleared es) ↔ AllOn P es
  | [] => Iff.rfl
  | e :: es => and_congr (on_cleared e) (allOn_allCleared es)

end

end Expr

namespace Stmt

mutual

/-- A statement in which the ends of all spans are as described. -/
def On (P : Position → Prop) : Stmt → Prop
  | expression e span | returns e span => e.On P ∧ span.On P
  | declaration _ _ value _ span => (∀ e ∈ value, e.On P) ∧ span.On P
  | assignment target value span => target.On P ∧ value.On P ∧ span.On P
  | conditional condition thenBody elseBody span =>
    condition.On P ∧ AllOn P thenBody ∧ AllOn P elseBody ∧ span.On P
  | forEach _ e body span | whileLoop e body span => e.On P ∧ AllOn P body ∧ span.On P

/-- Statements in which the ends of all spans are as described. -/
def AllOn (P : Position → Prop) : List Stmt → Prop
  | [] => True
  | stmt :: stmts => stmt.On P ∧ AllOn P stmts

end

variable {P : Position → Prop}

mutual

/-- Nor do the slots of a statement. -/
theorem on_cleared : ∀ stmt : Stmt, stmt.cleared.On P ↔ stmt.On P
  | expression e _ | returns e _ => and_congr_left' e.on_cleared
  | declaration _ _ value _ _ => by
    cases value with
    | none => exact Iff.rfl
    | some e => simp [cleared, On, e.on_cleared]
  | assignment target value _ => and_congr target.on_cleared (and_congr_left' value.on_cleared)
  | conditional condition thenBody elseBody _ =>
    and_congr condition.on_cleared (and_congr (allOn_allCleared thenBody)
      (and_congr_left' (allOn_allCleared elseBody)))
  | forEach _ e body _ | whileLoop e body _ =>
    and_congr e.on_cleared (and_congr_left' (allOn_allCleared body))

theorem allOn_allCleared : ∀ stmts : List Stmt, AllOn P (allCleared stmts) ↔ AllOn P stmts
  | [] => Iff.rfl
  | stmt :: stmts => and_congr (on_cleared stmt) (allOn_allCleared stmts)

end

end Stmt

/-- A field in which the ends of all spans are as described. -/
structure Field.On (P : Position → Prop) (f : Field) : Prop where
  /-- those of its value -/
  value : ∀ e ∈ f.value, e.On P
  /-- its own -/
  span : f.span.On P

/-- A method in which the ends of all spans are as described. -/
structure Method.On (P : Position → Prop) (m : Method) : Prop where
  /-- those of its statements -/
  body : Stmt.AllOn P m.body
  /-- its own -/
  span : m.span.On P

/-- A program in which the ends of all spans are as described. -/
structure Program.On (P : Position → Prop) (p : Program) : Prop where
  /-- those of its variables -/
  fields : ∀ f ∈ p.fields, f.On P
  /-- those of its functions -/
  methods : ∀ m ∈ p.methods, m.On P
  /-- its own -/
  span : p.span.On P

section Cleared

variable {P : Position → Prop}

/-- A slot that is emptied takes no position with it. -/
theorem Field.on_cleared (f : Field) : f.cleared.On P ↔ f.On P := by
  refine ⟨fun h => ⟨fun e he => e.on_cleared.mp (h.value _ ?_), h.span⟩,
    fun h => ⟨fun e he => ?_, h.span⟩⟩
  · exact Option.mem_map_of_mem _ he
  · obtain ⟨held, hheld, rfl⟩ := Option.mem_map.mp he
    exact held.on_cleared.mpr (h.value held hheld)

theorem Method.on_cleared (m : Method) : m.cleared.On P ↔ m.On P :=
  ⟨fun h => ⟨(Stmt.allOn_allCleared _).mp h.body, h.span⟩,
    fun h => ⟨(Stmt.allOn_allCleared _).mpr h.body, h.span⟩⟩

/-- So whatever holds of the positions of a program holds of those that checking leaves. -/
theorem Program.on_cleared (p : Program) : p.cleared.On P ↔ p.On P := by
  have hfields : (∀ f ∈ p.cleared.fields, f.On P) ↔ ∀ f ∈ p.fields, f.On P := by
    simp [Program.cleared, Field.on_cleared]
  have hmethods : (∀ m ∈ p.cleared.methods, m.On P) ↔ ∀ m ∈ p.methods, m.On P := by
    simp [Program.cleared, Method.on_cleared]
  exact ⟨fun h => ⟨hfields.mp h.fields, hmethods.mp h.methods, h.span⟩,
    fun h => ⟨hfields.mpr h.fields, hmethods.mpr h.methods, h.span⟩⟩

end Cleared

/-! ## Tokens -/

variable {P : Position → Prop}

/-- A token that denotes no constant is at fault where it starts. -/
theorem Token.literal_blames {token : Token} (h : P token.span.start) :
    Answers (fun _ => True) (Diagnostic.Blames .reading P) token.literal := by
  rw [literal]
  split
  case h_4 | h_5 | h_6 =>
    split
    · exact trivial
    · exact ⟨rfl, h⟩
  all_goals first | exact trivial | exact ⟨rfl, h⟩

namespace Cursor

/-- A cursor in whose reach all positions are as described. -/
structure On (P : Position → Prop) (c : Cursor) : Prop where
  /-- the place behind it -/
  before : P c.before
  /-- the tokens ahead -/
  ahead : ∀ token ∈ c.ahead, token.span.On P
  /-- the token that closes the text -/
  closing : c.closingSpan.On P

/-- What is read is good, and reading can go on behind it; a failure is one of reading, at a
position as described. -/
def Places {α : Type} {n : Nat} (P : Position → Prop) (good : α → Prop)
    (result : Except Failure (Read n α)) : Prop :=
  match result with
  | .ok read => good read.value ∧ read.next.On P
  | .error failure => failure.diagnostic.Blames .reading P

variable {α β : Type} {n k : Nat} {good : α → Prop} {c next : Cursor}

/-- What is read next is read by a cursor that is as described. One rule carries the positions
through all readers. -/
theorem Places.bind {good' : β → Prop} {first : Except Failure (Read n α)}
    {andThen : Read n α → Except Failure (Read k β)} (h : Places P good first)
    (hnext : ∀ value next shorter, good value → next.On P →
      Places P good' (andThen ⟨value, next, shorter⟩)) :
    Places P good' (first >>= andThen) := by
  cases first with
  | error failure => exact h
  | ok read => exact hnext read.value read.next read.shorter h.1 h.2

theorem Places.pure {value : α} {shorter : next.remaining < n} (hnext : next.On P)
    (h : good value) : Places P good (Pure.pure ⟨value, next, shorter⟩) :=
  ⟨h, hnext⟩

/-- A failure is told at the token ahead, or at the closing one. -/
theorem On.position (hc : c.On P) : P c.position := by
  obtain ⟨before, ahead, closingValue, closingSpan⟩ := c
  cases ahead with
  | nil => exact hc.closing.start
  | cons token tokens => exact (hc.ahead token (List.mem_cons_self ..)).start

theorem places_unexpected (hc : c.On P) (stopped : Cursor) :
    Places P good (stopped.fail c.unexpected : Except Failure (Read n α)) :=
  ⟨rfl, hc.position⟩

theorem places_unexpectedFor (hc : c.On P) (message : String) :
    Places P good (c.fail (c.unexpectedFor message) : Except Failure (Read n α)) :=
  ⟨rfl, hc.position⟩

/-- Behind a token the cursor stands at the end of it. -/
theorem On.take? (hc : c.On P) {token : Token} {shorter : next.remaining < c.remaining}
    (h : c.take? = some ⟨token, next, shorter⟩) : token.span.On P ∧ next.On P := by
  obtain ⟨before, ahead, closingValue, closingSpan⟩ := c
  cases ahead with
  | nil => cases h
  | cons first others =>
    cases h
    obtain ⟨hfirst, hothers⟩ := List.forall_mem_cons.mp hc.ahead
    exact ⟨hfirst, hfirst.stop, hothers, hc.closing⟩

/-- A token that is expected is taken, or the given fault is at a position as described. -/
theorem expectOr_places (hc : c.On P) (kind : Kind) {d : Diagnostic}
    (hd : d.Blames .reading P) :
    Places P (fun token => token.span.On P) (c.expectOr kind d) := by
  rw [expectOr]
  split
  · next token htake =>
    split
    · exact hc.take? htake
    · exact hd
  · exact hd

theorem expect_places (hc : c.On P) (kind : Kind) :
    Places P (fun token => token.span.On P) (c.expect kind) :=
  expectOr_places hc kind ⟨rfl, hc.position⟩

theorem expectFor_places (hc : c.On P) (kind : Kind) (message : String) :
    Places P (fun token => token.span.On P) (c.expectFor kind message) :=
  expectOr_places hc kind ⟨rfl, hc.position⟩

/-- A name takes no position into the tree. -/
theorem expectName_places (hc : c.On P) (message : String) :
    Places P (fun _ => True) (c.expectName message) := by
  rw [expectName]
  exact (expectFor_places hc .identifier message).bind fun _ _ _ _ hnext => .pure hnext trivial

/-! ## Expressions -/

/-- A constant stands where its token does. -/
theorem literal_places (hc : c.On P) : Places P (Expr.On P) c.literal := by
  rw [literal]
  split
  · exact places_unexpected hc c
  · next token next shorter htake =>
    obtain ⟨htoken, hnext⟩ := hc.take? htake
    have hanswers := token.literal_blames htoken.start
    split
    · exact ⟨htoken, hnext⟩
    · next d hd =>
      rw [hd] at hanswers
      exact hanswers

mutual

/-- An expression begins where its first operand does. The functions that read expressions call each
other, and so do their proofs. -/
theorem expr_places (power : Power) (c : Cursor) (hc : c.On P) :
    Places P (Expr.On P) (expr power c) := by
  rw [expr]
  refine (operand_places c hc).bind fun left next shorter hleft hnext => ?_
  refine (operators_places power left next hleft hnext).bind fun whole last _ hwhole hlast => ?_
  exact .pure hlast hwhole
termination_by 2 * c.remaining + 1

/-- Parentheses and calls end at tokens of their own. -/
theorem operand_places (c : Cursor) (hc : c.On P) : Places P (Expr.On P) (operand c) := by
  rw [operand]
  split
  · exact places_unexpectedFor hc _
  · next token next shorter htake =>
    obtain ⟨htoken, hnext⟩ := hc.take? htake
    split
    · split
      · refine (arguments_places next hnext).bind fun es last _ hes hlast => ?_
        exact .pure hlast ⟨hes, htoken.start, hlast.before⟩
      · exact .pure hnext htoken
    · refine (expr_places .default next hnext).bind fun inner mid _ hinner hmid => ?_
      refine (expectFor_places hmid .closeParen _).bind fun _ last _ _ hlast => ?_
      exact .pure hlast ⟨hinner, htoken.start, hlast.before⟩
    · split
      · exact literal_places hc
      · exact places_unexpectedFor hc _
termination_by 2 * c.remaining

/-- Each operator is put around what was read to the left of it. -/
theorem operators_places (power : Power) (left : Expr) (c : Cursor) (hleft : left.On P)
    (hc : c.On P) : Places P (Expr.On P) (operators power left c) := by
  rw [operators]
  split
  · split
    · refine (member_places left c hleft hc).bind fun left' next shorter hleft' hnext => ?_
      refine (operators_places power left' next hleft' hnext).bind
        fun whole last _ hwhole hlast => ?_
      exact .pure hlast hwhole
    · split
      · refine (binary_places c.kind.power left c hleft hc).bind
          fun left' next shorter hleft' hnext => ?_
        refine (operators_places power left' next hleft' hnext).bind
          fun whole last _ hwhole hlast => ?_
        exact .pure hlast hwhole
      · exact places_unexpected hc c
  · exact .pure hc hleft
termination_by 2 * c.remaining + 1

/-- An operator stands from the start of its left operand to the end of its right one. -/
theorem binary_places (power : Power) (left : Expr) (c : Cursor) (hleft : left.On P)
    (hc : c.On P) : Places P (Expr.On P) (binary power left c) := by
  rw [binary]
  split
  · exact places_unexpected hc c
  · next token next shorter htake =>
    obtain ⟨-, hnext⟩ := hc.take? htake
    split
    · exact places_unexpected hc next
    · refine (expr_places power next hnext).bind fun right last _ hright hlast => ?_
      exact .pure hlast ⟨hleft, hright, hleft.span.start, hright.span.stop⟩
termination_by 2 * c.remaining

/-- A member begins where its receiver does. -/
theorem member_places (receiver : Expr) (c : Cursor) (hreceiver : receiver.On P)
    (hc : c.On P) : Places P (Expr.On P) (member receiver c) := by
  rw [member]
  split
  · exact places_unexpected hc c
  · next token next shorter htake =>
    obtain ⟨-, hnext⟩ := hc.take? htake
    refine (expectFor_places hnext .identifier _).bind fun name mid _ hname hmid => ?_
    change Places P _ (if mid.kind = .openParen then _ else _)
    split
    · refine (arguments_places mid hmid).bind fun es last _ hes hlast => ?_
      exact .pure hlast ⟨hreceiver, hes, hreceiver.span.start, hlast.before⟩
    · exact .pure hmid ⟨hreceiver, hreceiver.span.start, hname.stop⟩
termination_by 2 * c.remaining

/-- Arguments are between parentheses, which are in no span of theirs. -/
theorem arguments_places (c : Cursor) (hc : c.On P) : Places P (Expr.AllOn P) (arguments c) := by
  rw [arguments]
  refine (expect_places hc .openParen).bind fun _ next shorter _ hnext => ?_
  change Places P _ (if next.kind = .closeParen then _ else _)
  split
  · refine (expect_places hnext .closeParen).bind fun _ last _ _ hlast => ?_
    exact .pure hlast trivial
  · refine (expr_places .default next hnext).bind fun first mid _ hfirst hmid => ?_
    refine (moreArguments_places mid hmid).bind fun others after _ hothers hafter => ?_
    refine (expectFor_places hafter .closeParen _).bind fun _ last _ _ hlast => ?_
    exact .pure hlast ⟨hfirst, hothers⟩
termination_by 2 * c.remaining

theorem moreArguments_places (c : Cursor) (hc : c.On P) :
    Places P (Expr.AllOn P) (moreArguments c) := by
  rw [moreArguments]
  split
  · refine (expect_places hc .comma).bind fun _ next shorter _ hnext => ?_
    refine (expr_places .default next hnext).bind fun first mid _ hfirst hmid => ?_
    refine (moreArguments_places mid hmid).bind fun others last _ hothers hlast => ?_
    exact .pure hlast ⟨hfirst, hothers⟩
  · exact .pure hc trivial
termination_by 2 * c.remaining

end

/-! ## Statements -/

theorem typeMark_places (hc : c.On P) (message : String) :
    Places P (fun _ => True) (c.typeMark message) := by
  rw [typeMark]
  split
  · refine (expect_places hc .colon).bind fun _ mid _ _ hmid => ?_
    exact (expectName_places hmid message).bind fun _ _ _ _ hlast => .pure hlast trivial
  · exact .pure hc trivial

theorem firstValue_places (hc : c.On P) :
    Places P (fun value => ∀ e ∈ value, e.On P) c.firstValue := by
  rw [firstValue]
  split
  · refine (expect_places hc .assignment).bind fun _ mid _ _ hmid => ?_
    refine (expr_places .default mid hmid).bind fun value last _ hvalue hlast => ?_
    refine .pure hlast fun e he => ?_
    obtain rfl := Option.some.inj he
    exact hvalue
  · exact .pure hc fun e he => nomatch he

/-- A declaration stands from `LET` to its semicolon. -/
theorem declaration_places (hc : c.On P) : Places P (Stmt.On P) c.declaration := by
  rw [declaration]
  refine (expect_places hc .letWord).bind fun word next _ hword hnext => ?_
  refine (expectName_places hnext _).bind fun _ next _ _ hnext => ?_
  refine (typeMark_places hnext _).bind fun _ next _ _ hnext => ?_
  refine (firstValue_places hnext).bind fun value next _ hvalue hnext => ?_
  refine (expect_places hnext .semicolon).bind fun _ last _ _ hlast => ?_
  exact .pure hlast ⟨hvalue, hword.start, hlast.before⟩

theorem returns_places (hc : c.On P) : Places P (Stmt.On P) c.returns := by
  rw [returns]
  refine (expect_places hc .returnWord).bind fun word next _ hword hnext => ?_
  refine (expr_places .default next hnext).bind fun value next _ hvalue hnext => ?_
  refine (expect_places hnext .semicolon).bind fun _ last _ _ hlast => ?_
  exact .pure hlast ⟨hvalue, hword.start, hlast.before⟩

/-- An assignment begins where its target does. -/
theorem expressionOrAssignment_places (hc : c.On P) :
    Places P (Stmt.On P) c.expressionOrAssignment := by
  rw [expressionOrAssignment]
  refine (expr_places .default c hc).bind fun target next _ htarget hnext => ?_
  refine (firstValue_places hnext).bind fun value next _ hvalue hnext => ?_
  refine (expect_places hnext .semicolon).bind fun _ last _ _ hlast => ?_
  cases value with
  | none => exact .pure hlast ⟨htarget, hc.position, hlast.before⟩
  | some value => exact .pure hlast ⟨htarget, hvalue value rfl, hc.position, hlast.before⟩

mutual

/-- Each statement has a reader of its own, by the word that it begins with. -/
theorem stmt_places (c : Cursor) (hc : c.On P) : Places P (Stmt.On P) (stmt c) := by
  rw [stmt]
  split
  · exact declaration_places hc
  · exact conditional_places c hc
  · exact forEach_places c hc
  · exact whileLoop_places c hc
  · exact returns_places hc
  · exact expressionOrAssignment_places hc
termination_by 3 * c.remaining + 1

/-- The statements of a block are read until a word that closes it. -/
theorem block_places (closers : List Kind) (c : Cursor) (hc : c.On P) :
    Places P (Stmt.AllOn P) (block closers c) := by
  rw [block]
  split
  · exact .pure hc trivial
  · split
    · refine (stmt_places c hc).bind fun first mid shorter hfirst hmid => ?_
      refine (block_places closers mid hmid).bind fun others last _ hothers hlast => ?_
      exact .pure hlast ⟨hfirst, hothers⟩
    · exact places_unexpectedFor hc _
termination_by 3 * c.remaining + 2

/-- A conditional stands from `IF` to `END`, with both of its bodies. -/
theorem conditional_places (c : Cursor) (hc : c.On P) : Places P (Stmt.On P) (conditional c) := by
  rw [conditional]
  refine (expect_places hc .ifWord).bind fun word next h hword hnext => ?_
  refine (expr_places .default next hnext).bind fun condition next h hcondition hnext => ?_
  refine (expect_places hnext .doWord).bind fun _ next h _ hnext => ?_
  refine (block_places _ next hnext).bind fun thenBody next h hthen hnext => ?_
  refine (elseBlock_places next hnext).bind fun elseBody next h helse hnext => ?_
  refine (expect_places hnext .endWord).bind fun _ last h _ hlast => ?_
  exact .pure hlast ⟨hcondition, hthen, helse, hword.start, hlast.before⟩
termination_by 3 * c.remaining

theorem elseBlock_places (c : Cursor) (hc : c.On P) : Places P (Stmt.AllOn P) (elseBlock c) := by
  rw [elseBlock]
  split
  · refine (expect_places hc .elseWord).bind fun _ next h _ hnext => ?_
    exact (block_places _ next hnext).bind fun body last h hbody hlast => .pure hlast hbody
  · exact .pure hc trivial
termination_by 3 * c.remaining

/-- So does a loop over items. -/
theorem forEach_places (c : Cursor) (hc : c.On P) : Places P (Stmt.On P) (forEach c) := by
  rw [forEach]
  refine (expect_places hc .forWord).bind fun word next h hword hnext => ?_
  refine (expectName_places hnext _).bind fun _ next h _ hnext => ?_
  refine (expect_places hnext .inWord).bind fun _ next h _ hnext => ?_
  refine (expr_places .default next hnext).bind fun items next h hitems hnext => ?_
  refine (expect_places hnext .doWord).bind fun _ next h _ hnext => ?_
  refine (block_places _ next hnext).bind fun body next h hbody hnext => ?_
  refine (expect_places hnext .endWord).bind fun _ last h _ hlast => ?_
  exact .pure hlast ⟨hitems, hbody, hword.start, hlast.before⟩
termination_by 3 * c.remaining

/-- So does a loop with a condition. -/
theorem whileLoop_places (c : Cursor) (hc : c.On P) : Places P (Stmt.On P) (whileLoop c) := by
  rw [whileLoop]
  refine (expect_places hc .whileWord).bind fun word next h hword hnext => ?_
  refine (expr_places .default next hnext).bind fun condition next h hcondition hnext => ?_
  refine (expect_places hnext .doWord).bind fun _ next h _ hnext => ?_
  refine (block_places _ next hnext).bind fun body next h hbody hnext => ?_
  refine (expect_places hnext .endWord).bind fun _ last h _ hlast => ?_
  exact .pure hlast ⟨hcondition, hbody, hword.start, hlast.before⟩
termination_by 3 * c.remaining

end

/-! ## Programs -/

/-- A field stands where its declaration does. -/
theorem field_places (hc : c.On P) : Places P (Field.On P) c.field := by
  rw [field]
  refine (expect_places hc .letWord).bind fun word next _ hword hnext => ?_
  refine (expectName_places hnext _).bind fun _ next _ _ hnext => ?_
  refine (expectFor_places hnext .colon _).bind fun _ next _ _ hnext => ?_
  refine (expectName_places hnext _).bind fun _ next _ _ hnext => ?_
  refine (firstValue_places hnext).bind fun value next _ hvalue hnext => ?_
  refine (expect_places hnext .semicolon).bind fun _ last _ _ hlast => ?_
  exact .pure hlast ⟨hvalue, hword.start, hlast.before⟩

theorem parameters_places (c : Cursor) (hc : c.On P) : Places P (fun _ => True) c.parameters := by
  rw [parameters]
  refine (expectName_places hc _).bind fun _ next h _ hnext => ?_
  refine (expect_places hnext .colon).bind fun _ next h _ hnext => ?_
  refine (expectName_places hnext _).bind fun _ next h _ hnext => ?_
  change Places P _ (if next.kind = .comma then _ else _)
  split
  · refine (expect_places hnext .comma).bind fun _ next h _ hnext => ?_
    exact (parameters_places next hnext).bind fun _ last h _ hlast => .pure hlast trivial
  · exact .pure hnext trivial
termination_by c.remaining

theorem parameterList_places (hc : c.On P) : Places P (fun _ => True) c.parameterList := by
  rw [parameterList]
  refine (expect_places hc .openParen).bind fun _ next _ _ hnext => ?_
  change Places P _ (if next.kind = .closeParen then _ else _)
  split
  · exact (expect_places hnext .closeParen).bind fun _ last _ _ hlast => .pure hlast trivial
  · refine (parameters_places next hnext).bind fun _ next _ _ hnext => ?_
    exact (expectFor_places hnext .closeParen _).bind fun _ last _ _ hlast => .pure hlast trivial

/-- A method stands from `DEF` to `END`. -/
theorem method_places (hc : c.On P) : Places P (Method.On P) c.method := by
  rw [method]
  refine (expect_places hc .defWord).bind fun word next _ hword hnext => ?_
  refine (expectName_places hnext _).bind fun _ next _ _ hnext => ?_
  refine (parameterList_places hnext).bind fun _ next _ _ hnext => ?_
  refine (typeMark_places hnext _).bind fun _ next _ _ hnext => ?_
  refine (expect_places hnext .doWord).bind fun _ next _ _ hnext => ?_
  refine (block_places _ next hnext).bind fun body next _ hbody hnext => ?_
  refine (expect_places hnext .endWord).bind fun _ last _ _ hlast => ?_
  exact .pure hlast ⟨hbody, hword.start, hlast.before⟩

theorem methods_places (c : Cursor) (hc : c.On P) :
    Places P (fun ms => ∀ m ∈ ms, m.On P) c.methods := by
  rw [methods]
  split
  · split
    · refine (method_places hc).bind fun first next h hfirst hnext => ?_
      refine (methods_places next hnext).bind fun others last _ hothers hlast => ?_
      exact .pure hlast (List.forall_mem_cons.mpr ⟨hfirst, hothers⟩)
    · exact places_unexpectedFor hc _
    · exact places_unexpectedFor hc _
  · exact .pure hc fun m hm => absurd hm List.not_mem_nil
termination_by c.remaining

theorem fields_places (c : Cursor) (hc : c.On P) :
    Places P (fun fs => ∀ f ∈ fs, f.On P) c.fields := by
  rw [fields]
  split
  · refine (field_places hc).bind fun first next h hfirst hnext => ?_
    refine (fields_places next hnext).bind fun others last _ hothers hlast => ?_
    exact .pure hlast (List.forall_mem_cons.mpr ⟨hfirst, hothers⟩)
  · exact .pure hc fun f hf => absurd hf List.not_mem_nil
termination_by c.remaining

/-- A program stands from where the cursor is to where it stops. -/
theorem program_places (hc : c.On P) : Places P (Program.On P) c.program := by
  rw [program]
  refine (fields_places c hc).bind fun fs mid _ hfields hmid => ?_
  refine (methods_places mid hmid).bind fun ms last _ hmethods hlast => ?_
  exact .pure hlast ⟨hfields, hmethods, hc.before, hlast.before⟩

/-- A cursor is put in front of tokens at the start of the file. -/
theorem on_ofTokens {tokens : List Token} {file : String}
    (htokens : ∀ token ∈ tokens, token.span.On P) (hstart : P ⟨0, file⟩) :
    (ofTokens tokens file).On P := by
  rw [ofTokens]
  split
  · next token hlast =>
    have htoken := htokens token (List.mem_of_getLast? hlast)
    split
    · exact ⟨hstart, fun token h => htokens token (List.mem_of_mem_dropLast h), htoken⟩
    · exact ⟨hstart, htokens, htoken.stop, htoken.stop⟩
  · exact ⟨hstart, nofun, hstart, hstart⟩

end Cursor

/-- All spans of a program begin and end where its tokens do, or at the start of the file; if there
is none, the fault is one of reading, and at such a place too. -/
theorem Program.parse_places {tokens : List Token} {file : String}
    (htokens : ∀ token ∈ tokens, token.span.On P) (hstart : P ⟨0, file⟩) :
    Answers (Program.On P) (Diagnostic.Blames .reading P) (Program.parse tokens file) := by
  have hplaces := Cursor.program_places (Cursor.on_ofTokens htokens hstart)
  rw [Program.parse]
  split
  · next read hread =>
    rw [hread] at hplaces
    exact hplaces.1
  · next failure hfailure =>
    rw [hfailure] at hplaces
    exact hplaces

end TeachLang
