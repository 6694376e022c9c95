import TeachLang.Proofs.Legible

/-!
# What is read is what was written

Whatever is read from well-formed tokens is canonical, and its words are those of the tokens that
were taken for it, spelled plainly. `Cursor.Took` says so of the tokens between two cursors, and is
put together along the way that reading goes.

A loop over operators is read with a left operand in hand. That nothing is left out of it, or
grouped otherwise than the powers tell, rests on what `Cursor.Holds` asks of that operand: it holds
together more tightly than asked for, and at least as tightly as what comes next.
-/

namespace TeachLang

/-! ## Words that are written -/

theorem Token.fst_plain (token : Token) : token.plain.1 = token.kind := by
  unfold plain
  split <;> rfl

/-- The word of a token whose kind has a spelling is the word of the kind. -/
theorem Token.plain_eq_word {token : Token} (h : token.WellFormed)
    (hkind : token.kind.spelling?.isSome = true) : token.plain = token.kind.word := by
  obtain ⟨kind, text, span⟩ := token
  cases kind
  case eof | identifier | integer | decimal | character | string => cases hkind
  all_goals
    obtain rfl := Option.some.inj h
    rfl

/-- What a well-formed token denotes is spelled like the token. -/
theorem Token.plain_of_literal {token : Token} (h : token.WellFormed) {value : Literal}
    (hvalue : token.literal = .ok value) : token.plain = value.word ∧ value.Spellable := by
  obtain ⟨kind, text, span⟩ := token
  cases kind
  case nilWord | trueWord | falseWord =>
    obtain rfl := Except.ok.inj hvalue
    obtain rfl := Option.some.inj h
    exact ⟨rfl, trivial⟩
  case string =>
    obtain rfl := Except.ok.inj hvalue
    exact ⟨rfl, trivial⟩
  case integer =>
    obtain ⟨sign, hsign, cs, hcs, rfl⟩ := h
    simp only [literal, Text.integer?_written hsign hcs] at hvalue
    obtain rfl := Except.ok.inj hvalue
    exact ⟨congrArg (Kind.integer, ·) (Text.integerText_written hsign hcs).symm, trivial⟩
  case decimal =>
    obtain ⟨sign, hsign, cs, ds, hcs, hds, rfl⟩ := h
    simp only [literal, Decimal.read?_written hsign hcs hds] at hvalue
    split at hvalue
    · next d hd =>
      split at hd
      · next hfits =>
        obtain rfl := Option.some.inj hd
        obtain rfl := Except.ok.inj hvalue
        refine ⟨congrArg (Kind.decimal, ·) (Decimal.positional_written hsign hcs hds).symm, ?_,
          hfits⟩
        exact Int.natCast_pos.mpr (List.length_pos_iff.mpr hds.ne_nil)
      · cases hd
    · cases hvalue
  case character =>
    obtain ⟨c, rfl⟩ := h
    simp only [literal, String.toList_ofList] at hvalue
    obtain rfl := Except.ok.inj hvalue
    exact ⟨rfl, trivial⟩
  all_goals cases hvalue

theorem withoutEmptyElse_cons {w : Word} (h : w.1 ≠ .elseWord) (ws : List Word) :
    withoutEmptyElse (w :: ws) = w :: withoutEmptyElse ws := by
  rw [withoutEmptyElse, if_neg fun hand => h hand.1]

namespace Cursor

/-! ## What is taken -/

/-- Whether all tokens ahead are well-formed. -/
def WellFormed (c : Cursor) : Prop := ∀ token ∈ c.ahead, token.WellFormed

/-- The words ahead, spelled plainly and without second bodies that are empty. -/
def written (c : Cursor) : List Word := withoutEmptyElse (c.ahead.map Token.plain)

/-- The words that are taken to get from one cursor to another. -/
structure Took (c : Cursor) (ws : List Word) (next : Cursor) : Prop where
  /-- what is ahead stays well-formed -/
  wellFormed : next.WellFormed
  /-- the words stand in front of what is ahead then -/
  written : c.written = ws ++ next.written

/-- Whatever is read is as it should be, and so is the cursor behind it. -/
def Finds {α : Type} {n : Nat} (result : Except Failure (Read n α)) (good : α → Cursor → Prop) :
    Prop :=
  ∀ read, result = .ok read → good read.value read.next

variable {α β : Type} {n k : Nat} {good : α → Cursor → Prop} {c mid next : Cursor}
  {vs ws : List Word}

theorem Took.refl (h : c.WellFormed) : c.Took [] c := ⟨h, rfl⟩

theorem Took.trans (h : c.Took vs mid) (hnext : mid.Took ws next) : c.Took (vs ++ ws) next :=
  ⟨hnext.wellFormed, by rw [h.written, hnext.written, List.append_assoc]⟩

theorem Finds.bind {good' : β → Cursor → Prop} {first : Except Failure (Read n α)}
    {andThen : Read n α → Except Failure (Read k β)} (h : Finds first good)
    (hnext : ∀ value next shorter, good value next → Finds (andThen ⟨value, next, shorter⟩) good') :
    Finds (first >>= andThen) good' := by
  intro read hread
  cases first with
  | error failure => cases hread
  | ok found =>
    obtain ⟨value, next, shorter⟩ := found
    exact hnext value next shorter (h _ rfl) read hread

theorem Finds.pure {value : α} {shorter : next.remaining < n} (h : good value next) :
    Finds (Pure.pure ⟨value, next, shorter⟩) good := by
  rintro _ ⟨⟩
  exact h

theorem Finds.fail (diagnostic : Diagnostic) :
    Finds (c.fail diagnostic : Except Failure (Read n α)) good := by
  rintro _ ⟨⟩

theorem Finds.mono {good' : α → Cursor → Prop} {result : Except Failure (Read n α)}
    (h : Finds result good) (himp : ∀ value next, good value next → good' value next) :
    Finds result good' := fun read hread => himp _ _ (h read hread)

/-! ## Tokens -/

theorem ahead_of_take? {token : Token} {shorter : next.remaining < c.remaining}
    (h : c.take? = some ⟨token, next, shorter⟩) : c.ahead = token :: next.ahead := by
  obtain ⟨before, ahead, closingValue, closingSpan⟩ := c
  cases ahead with
  | nil => cases h
  | cons first others => cases h; rfl

theorem kind_of_ahead {token : Token} (h : c.ahead = token :: next.ahead) :
    c.kind = token.kind := by
  rw [kind, current, h]
  rfl

theorem WellFormed.of_ahead {token : Token} (hc : c.WellFormed)
    (h : c.ahead = token :: next.ahead) : token.WellFormed ∧ next.WellFormed := by
  rw [WellFormed, h, List.forall_mem_cons] at hc
  exact hc

/-- A token that begins no second body is taken with its word. -/
theorem Took.of_ahead {token : Token} (hc : c.WellFormed) (h : c.ahead = token :: next.ahead)
    (helse : token.kind ≠ .elseWord) : c.Took [token.plain] next := by
  refine ⟨(hc.of_ahead h).2, ?_⟩
  rw [Cursor.written, h, List.map_cons, withoutEmptyElse_cons (by rwa [token.fst_plain])]
  rfl

theorem finds_expectOr (c : Cursor) (kind : Kind) (diagnostic : Diagnostic) :
    Finds (c.expectOr kind diagnostic) fun token next =>
      c.ahead = token :: next.ahead ∧ token.kind = kind := by
  rw [expectOr]
  split
  · next found htake =>
    obtain ⟨token, next, shorter⟩ := found
    split
    · next hkind =>
      rintro _ ⟨⟩
      exact ⟨ahead_of_take? htake, hkind⟩
    · exact .fail _
  · exact .fail _

/-- A token of a kind that has a spelling is taken with the word of the kind. -/
theorem Took.word {token : Token} {kind : Kind} (hc : c.WellFormed)
    (h : c.ahead = token :: next.ahead) (hkind : token.kind = kind)
    (hspelling : kind.spelling?.isSome = true) (helse : kind ≠ .elseWord) :
    c.Took [kind.word] next := by
  subst hkind
  rw [← token.plain_eq_word (hc.of_ahead h).1 hspelling]
  exact .of_ahead hc h helse

/-- A name is taken with itself. -/
theorem Took.name {token : Token} (hc : c.WellFormed) (h : c.ahead = token :: next.ahead)
    (hkind : token.kind = .identifier) : c.Took [(.identifier, token.value)] next := by
  have hplain : token.plain = (.identifier, token.value) := by
    simp only [Token.plain, Token.word, hkind]
  rw [← hplain]
  exact .of_ahead hc h (by rw [hkind]; exact Kind.noConfusion)

theorem finds_expect {kind : Kind} (hc : c.WellFormed) (hspelling : kind.spelling?.isSome = true)
    (helse : kind ≠ .elseWord) :
    Finds (c.expect kind) fun _ next => c.Took [kind.word] next :=
  (finds_expectOr c kind _).mono fun _ _ h => .word hc h.1 h.2 hspelling helse

theorem finds_expectFor {kind : Kind} (hc : c.WellFormed)
    (hspelling : kind.spelling?.isSome = true) (helse : kind ≠ .elseWord) (message : String) :
    Finds (c.expectFor kind message) fun _ next => c.Took [kind.word] next :=
  (finds_expectOr c kind _).mono fun _ _ h => .word hc h.1 h.2 hspelling helse

theorem finds_expectName (hc : c.WellFormed) (message : String) :
    Finds (c.expectName message) fun n next => c.Took [(.identifier, n)] next := by
  rw [expectName]
  refine (finds_expectOr c .identifier _).bind fun token next shorter h => ?_
  exact .pure (.name hc h.1 h.2)

/-! ## Expressions -/

/-- A constant is taken with its plain spelling. -/
theorem finds_literal (hc : c.WellFormed) :
    Finds c.literal fun e next => c.Took e.words next ∧ e.Canonical ∧ e.isBinary = false := by
  rw [literal]
  split
  · exact .fail _
  · next token next shorter htake =>
    have hahead := ahead_of_take? htake
    split
    · next value hvalue =>
      obtain ⟨hplain, hspellable⟩ := Token.plain_of_literal (hc.of_ahead hahead).1 hvalue
      -- a constant can begin an operand, and that word cannot
      have helse : token.kind ≠ .elseWord := fun helse => by
        rw [← token.fst_plain, hplain] at helse
        have hstarts := value.startsOperand_word
        rw [helse] at hstarts
        cases hstarts
      rintro _ ⟨⟩
      refine ⟨?_, hspellable, rfl⟩
      rw [Expr.words, ← hplain]
      exact .of_ahead hc hahead helse
    · exact .fail _

/-- An expression that was read from `start` on holds together more tightly than at `p`, and at
least as tightly as what comes next. -/
structure Holds (start : Cursor) (p : Power) (e : Expr) (next : Cursor) : Prop where
  /-- its words were taken -/
  took : start.Took e.words next
  /-- its words tell its shape -/
  canonical : e.Canonical
  /-- its operator is tighter than asked for -/
  tight : e.isBinary = true → p < e.power
  /-- what comes next does not take its right operand away -/
  loose : e.isBinary = true → ¬ e.power < next.kind.power

theorem Holds.of_not_binary {p : Power} {e : Expr}
    (h : c.Took e.words next ∧ e.Canonical ∧ e.isBinary = false) : c.Holds p e next := by
  obtain ⟨htook, hcanonical, hbinary⟩ := h
  refine ⟨htook, hcanonical, fun h => ?_, fun h => ?_⟩ <;>
  · rw [hbinary] at h
    cases h

mutual

/-- What is read as an expression holds together more tightly than asked for, and nothing that
follows goes on with it. -/
theorem expr_finds (p : Power) (c : Cursor) (hc : c.WellFormed) :
    Finds (expr p c) fun e next => c.Holds p e next ∧ ¬ p < next.kind.power := by
  rw [expr]
  refine (operand_finds c hc).bind fun left next shorter hleft => ?_
  refine (operators_finds p c left next (.of_not_binary hleft)).bind
    fun whole next shorter hwhole => ?_
  exact .pure hwhole
termination_by 2 * c.remaining + 1

/-- Operands are no operators. -/
theorem operand_finds (c : Cursor) (hc : c.WellFormed) :
    Finds (operand c) fun e next => c.Took e.words next ∧ e.Canonical ∧ e.isBinary = false := by
  rw [operand]
  split
  · exact .fail _
  · next token next shorter htake =>
    have hahead := ahead_of_take? htake
    have hnext := (hc.of_ahead hahead).2
    split
    · next hkind =>
      have hname := Took.name hc hahead hkind
      split
      · refine (arguments_finds next hnext).bind fun es last shorter' hes => ?_
        exact .pure ⟨hname.trans hes.1, hes.2, rfl⟩
      · exact .pure ⟨hname, trivial, rfl⟩
    · next hkind =>
      have hparen := Took.word hc hahead hkind rfl (by decide)
      refine (expr_finds .default next hnext).bind fun inner mid shorter' hinner => ?_
      have htook := hparen.trans hinner.1.took
      refine (finds_expectFor htook.wellFormed rfl (by decide) _).bind
        fun _ last shorter'' hclose => ?_
      exact .pure ⟨htook.trans hclose, hinner.1.canonical, rfl⟩
    · split
      · exact finds_literal hc
      · exact .fail _
termination_by 2 * c.remaining

/-- Behind a left operand everything is read that holds on to it. -/
theorem operators_finds (p : Power) (start : Cursor) (left : Expr) (c : Cursor)
    (hleft : start.Holds p left c) :
    Finds (operators p left c) fun e next => start.Holds p e next ∧ ¬ p < next.kind.power := by
  rw [operators]
  split
  · next hp =>
    split
    · next hdot =>
      -- a dot would have gone to the right operand of an operator, to which it holds more tightly
      have hbinary : left.isBinary = false := by
        cases hb : left.isBinary with
        | false => rfl
        | true =>
          have hloose := hleft.loose hb
          rw [hdot] at hloose
          exact absurd (left.power_lt_member hb) hloose
      refine (member_finds start left c hleft.took hleft.canonical hbinary hdot).bind
        fun left' next shorter hleft' => ?_
      refine (operators_finds p start left' next (.of_not_binary hleft')).bind
        fun whole last shorter' hwhole => ?_
      exact .pure hwhole
    · split
      · next hsome =>
        obtain ⟨operator, hoperator⟩ := Option.isSome_iff_exists.mp hsome
        -- a left operand that is no operator holds together more tightly than any of them
        have hloose : ¬ left.power < c.kind.power := by
          cases hb : left.isBinary with
          | false =>
            rw [left.power_of_not_binary hb, ← Operator.kind_of_ofKind? hoperator]
            exact Power.not_lt_of_lt operator.power_lt_member
          | true => exact hleft.loose hb
        refine (binary_finds start left c hleft.took hleft.canonical hloose).bind
          fun left' next shorter hleft' => ?_
        obtain ⟨htook, hcanonical, hpower, hnext⟩ := hleft'
        have hholds : start.Holds p left' next :=
          ⟨htook, hcanonical, fun _ => hpower ▸ hp, fun _ => hnext⟩
        refine (operators_finds p start left' next hholds).bind fun whole last shorter' hwhole => ?_
        exact .pure hwhole
      · exact .fail _
  · next hp => exact .pure ⟨hleft, hp⟩
termination_by 2 * c.remaining + 1

/-- The right operand of an operator holds together more tightly than the operator, and nothing that
follows goes on with it. -/
theorem binary_finds (start : Cursor) (left : Expr) (c : Cursor)
    (htook : start.Took left.words c) (hcanonical : left.Canonical)
    (hloose : ¬ left.power < c.kind.power) :
    Finds (binary c.kind.power left c) fun e next => start.Took e.words next ∧ e.Canonical ∧
      e.power = c.kind.power ∧ ¬ e.power < next.kind.power := by
  rw [binary]
  split
  · exact .fail _
  · next token next shorter htake =>
    have hahead := ahead_of_take? htake
    split
    · exact .fail _
    · next operator hoperator =>
      have hkind : token.kind = operator.kind := (Operator.kind_of_ofKind? hoperator).symm
      have hpower : c.kind.power = operator.power := by rw [kind_of_ahead hahead, hkind]; rfl
      have hword := Took.word htook.wellFormed hahead hkind operator.isSome_spelling
        operator.kind_ne_elseWord
      refine (expr_finds c.kind.power next hword.wellFormed).bind
        fun right last shorter' hright => ?_
      obtain ⟨hholds, hlast⟩ := hright
      -- what is as loose as the operator is left to the loop, so it groups to the left
      have htight : operator.power < right.power := by
        cases hb : right.isBinary with
        | false => rw [right.power_of_not_binary hb]; exact operator.power_lt_member
        | true => exact hpower ▸ hholds.tight hb
      rw [hpower] at hloose hlast ⊢
      exact .pure ⟨htook.trans (hword.trans hholds.took),
        ⟨hcanonical, hholds.canonical, hloose, htight⟩, rfl, hlast⟩
termination_by 2 * c.remaining

/-- A member keeps its receiver. -/
theorem member_finds (start : Cursor) (receiver : Expr) (c : Cursor)
    (htook : start.Took receiver.words c) (hcanonical : receiver.Canonical)
    (hbinary : receiver.isBinary = false) (hkind : c.kind = .dot) :
    Finds (member receiver c) fun e next =>
      start.Took e.words next ∧ e.Canonical ∧ e.isBinary = false := by
  rw [member]
  split
  · exact .fail _
  · next token next shorter htake =>
    have hahead := ahead_of_take? htake
    rw [kind_of_ahead hahead] at hkind
    have hdot := htook.trans (Took.word htook.wellFormed hahead hkind rfl (by decide))
    refine (finds_expectOr next .identifier _).bind fun name mid shorter' hname => ?_
    have hfield := hdot.trans (Took.name hdot.wellFormed hname.1 hname.2)
    rw [List.append_assoc] at hfield
    change Finds (if mid.kind = .openParen then _ else _) _
    split
    · refine (arguments_finds mid hfield.wellFormed).bind fun es last shorter'' hes => ?_
      refine .pure ⟨?_, ⟨hcanonical, hbinary, hes.2⟩, rfl⟩
      have hcall := hfield.trans hes.1
      rwa [List.append_assoc] at hcall
    · exact .pure ⟨hfield, ⟨hcanonical, hbinary⟩, rfl⟩
termination_by 2 * c.remaining

/-- Arguments keep their parentheses. -/
theorem arguments_finds (c : Cursor) (hc : c.WellFormed) :
    Finds (arguments c) fun es next =>
      c.Took (Expr.argumentWords es) next ∧ Expr.AllCanonical es := by
  rw [arguments]
  refine (finds_expect hc rfl (by decide)).bind fun token next shorter hopen => ?_
  change Finds (if next.kind = .closeParen then _ else _) _
  split
  · refine (finds_expect hopen.wellFormed rfl (by decide)).bind fun _ last shorter' hclose => ?_
    exact .pure ⟨hopen.trans hclose, trivial⟩
  · refine (expr_finds .default next hopen.wellFormed).bind fun first mid shorter' hfirst => ?_
    have hmid := hfirst.1.took.wellFormed
    refine (moreArguments_finds mid hmid).bind fun others after shorter'' hothers => ?_
    refine (finds_expectFor hothers.1.wellFormed rfl (by decide) _).bind
      fun _ last shorter''' hclose => ?_
    refine .pure ⟨?_, hfirst.1.canonical, hothers.2⟩
    exact hopen.trans (hfirst.1.took.trans (hothers.1.trans hclose))
termination_by 2 * c.remaining

/-- Further arguments keep their commas. -/
theorem moreArguments_finds (c : Cursor) (hc : c.WellFormed) :
    Finds (moreArguments c) fun es next =>
      c.Took (Expr.moreWords es) next ∧ Expr.AllCanonical es := by
  rw [moreArguments]
  split
  · refine (finds_expect hc rfl (by decide)).bind fun token next shorter hcomma => ?_
    refine (expr_finds .default next hcomma.wellFormed).bind fun first mid shorter' hfirst => ?_
    have htook := hcomma.trans hfirst.1.took
    refine (moreArguments_finds mid htook.wellFormed).bind fun others last shorter'' hothers => ?_
    refine .pure ⟨?_, hfirst.1.canonical, hothers.2⟩
    exact htook.trans hothers.1
  · exact .pure ⟨.refl hc, trivial⟩
termination_by 2 * c.remaining

end

/-- What is read as a whole expression is taken with its words. -/
theorem finds_expr (hc : c.WellFormed) :
    Finds (expr .default c) fun e next => c.Took e.words next ∧ e.Canonical :=
  (expr_finds .default c hc).mono fun _ _ h => ⟨h.1.took, h.1.canonical⟩

/-! ## Statements -/

theorem finds_typeMark (hc : c.WellFormed) (message : String) :
    Finds (c.typeMark message) fun typeName next => c.Took (markWords typeName) next := by
  rw [typeMark]
  split
  · refine (finds_expect hc rfl (by decide)).bind fun _ mid _ hcolon => ?_
    refine (finds_expectName hcolon.wellFormed _).bind fun typeName last _ hname => ?_
    exact .pure (hcolon.trans hname)
  · exact .pure (.refl hc)

theorem finds_firstValue (hc : c.WellFormed) :
    Finds c.firstValue fun value next =>
      c.Took (valueWords value) next ∧ ∀ e ∈ value, e.Canonical := by
  rw [firstValue]
  split
  · refine (finds_expect hc rfl (by decide)).bind fun _ mid _ hsign => ?_
    refine (finds_expr hsign.wellFormed).bind fun value last _ hvalue => ?_
    refine .pure ⟨hsign.trans hvalue.1, ?_⟩
    rintro _ ⟨⟩
    exact hvalue.2
  · exact .pure ⟨.refl hc, fun e he => absurd he (Option.not_mem_none e)⟩

theorem finds_declaration (hc : c.WellFormed) :
    Finds c.declaration fun s next => c.Took s.words next ∧ s.Canonical := by
  rw [declaration]
  refine (finds_expect hc rfl (by decide)).bind fun word _ _ hword => ?_
  refine (finds_expectName hword.wellFormed _).bind fun n _ _ hn => ?_
  refine (finds_typeMark hn.wellFormed _).bind fun typeName _ _ htype => ?_
  refine (finds_firstValue htype.wellFormed).bind fun value _ _ hvalue => ?_
  refine (finds_expect hvalue.1.wellFormed rfl (by decide)).bind fun _ _ _ hend => ?_
  exact .pure ⟨hword.trans (hn.trans (htype.trans (hvalue.1.trans hend))), hvalue.2⟩

theorem finds_returns (hc : c.WellFormed) :
    Finds c.returns fun s next => c.Took s.words next ∧ s.Canonical := by
  rw [returns]
  refine (finds_expect hc rfl (by decide)).bind fun word _ _ hword => ?_
  refine (finds_expr hword.wellFormed).bind fun value _ _ hvalue => ?_
  refine (finds_expect hvalue.1.wellFormed rfl (by decide)).bind fun _ _ _ hend => ?_
  exact .pure ⟨hword.trans (hvalue.1.trans hend), hvalue.2⟩

theorem finds_expressionOrAssignment (hc : c.WellFormed) :
    Finds c.expressionOrAssignment fun s next => c.Took s.words next ∧ s.Canonical := by
  rw [expressionOrAssignment]
  refine (finds_expr hc).bind fun target _ _ htarget => ?_
  refine (finds_firstValue htarget.1.wellFormed).bind fun value _ _ hvalue => ?_
  refine (finds_expect hvalue.1.wellFormed rfl (by decide)).bind fun _ _ _ hend => ?_
  have htook := htarget.1.trans (hvalue.1.trans hend)
  cases value with
  | none => exact .pure ⟨htook, htarget.2⟩
  | some value => exact .pure ⟨htook, htarget.2, hvalue.2 value rfl⟩

/-- The word that begins a second body is taken, unless nothing is in the body. -/
theorem took_elseWord {token : Token} {ss : List Stmt} {last : Cursor} (hc : c.WellFormed)
    (h : c.ahead = token :: next.ahead) (hkind : token.kind = .elseWord)
    (hss : next.Took (Stmt.allWords ss) last) (hempty : ss = [] ↔ next.kind = .endWord) :
    c.Took (Stmt.elseWords ss) last := by
  -- it is left out of what is written if the word that closes the block stands right behind it
  have hhead : (next.ahead.map Token.plain).head?.map Prod.fst = some .endWord ↔
      next.kind = .endWord := by
    rw [kind, current]
    cases next.ahead with
    | nil => exact iff_of_false nofun Kind.noConfusion
    | cons token _ => exact Option.some_inj.trans (by rw [token.fst_plain]; rfl)
  have hword : token.plain = Kind.elseWord.word := by
    rw [token.plain_eq_word (hc.of_ahead h).1 (by rw [hkind]; rfl), hkind]
  have hwritten : c.written = if next.kind = .endWord then next.written
      else Kind.elseWord.word :: next.written := by
    rw [Cursor.written, h, List.map_cons, hword, withoutEmptyElse]
    exact if_congr ((and_iff_right rfl).trans hhead) rfl rfl
  refine ⟨hss.wellFormed, ?_⟩
  rw [hwritten]
  cases ss with
  | nil =>
    rw [if_pos (hempty.mp rfl)]
    exact hss.written
  | cons s ss =>
    rw [if_neg fun hend => List.cons_ne_nil _ _ (hempty.mpr hend), hss.written]
    rfl

mutual

/-- What is read as a statement is taken with its words. -/
theorem stmt_finds (c : Cursor) (hc : c.WellFormed) :
    Finds (stmt c) fun s next => c.Took s.words next ∧ s.Canonical := by
  rw [stmt]
  split
  · exact finds_declaration hc
  · exact conditional_finds c hc
  · exact forEach_finds c hc
  · exact whileLoop_finds c hc
  · exact finds_returns hc
  · exact finds_expressionOrAssignment hc
termination_by 3 * c.remaining + 1

/-- What is read as statements is taken with their words. -/
theorem block_finds (closers : List Kind) (c : Cursor) (hc : c.WellFormed) :
    Finds (block closers c) fun ss next => c.Took (Stmt.allWords ss) next ∧
      Stmt.AllCanonical ss ∧ (ss = [] ↔ c.kind ∈ closers) := by
  rw [block]
  split
  · next hkind => exact .pure ⟨.refl hc, trivial, iff_of_true rfl hkind⟩
  · next hkind =>
    split
    · refine (stmt_finds c hc).bind fun first mid shorter hfirst => ?_
      refine (block_finds closers mid hfirst.1.wellFormed).bind fun others last _ hothers => ?_
      exact .pure ⟨hfirst.1.trans hothers.1, ⟨hfirst.2, hothers.2.1⟩,
        iff_of_false (List.cons_ne_nil _ _) hkind⟩
    · exact .fail _
termination_by 3 * c.remaining + 2

theorem conditional_finds (c : Cursor) (hc : c.WellFormed) :
    Finds (conditional c) fun s next => c.Took s.words next ∧ s.Canonical := by
  rw [conditional]
  refine (finds_expect hc rfl (by decide)).bind fun word next h hword => ?_
  refine (finds_expr hword.wellFormed).bind fun condition next h hcondition => ?_
  refine (finds_expect hcondition.1.wellFormed rfl (by decide)).bind fun _ next h hdo => ?_
  refine (block_finds _ next hdo.wellFormed).bind fun thenBody next h hthen => ?_
  refine (elseBlock_finds next hthen.1.wellFormed).bind fun elseBody next h helse => ?_
  refine (finds_expect helse.1.wellFormed rfl (by decide)).bind fun _ next h hend => ?_
  exact .pure ⟨hword.trans (hcondition.1.trans (hdo.trans
    (hthen.1.trans (helse.1.trans hend)))), hcondition.2, hthen.2.1, helse.2⟩
termination_by 3 * c.remaining

theorem elseBlock_finds (c : Cursor) (hc : c.WellFormed) :
    Finds (elseBlock c) fun ss next => c.Took (Stmt.elseWords ss) next ∧ Stmt.AllCanonical ss := by
  rw [elseBlock]
  split
  · refine (finds_expectOr c .elseWord _).bind fun word next h hword => ?_
    refine (block_finds [.endWord] next (hc.of_ahead hword.1).2).bind fun ss last h hss => ?_
    refine .pure ⟨took_elseWord hc hword.1 hword.2 hss.1 ?_, hss.2.1⟩
    rw [hss.2.2, List.mem_singleton]
  · exact .pure ⟨.refl hc, trivial⟩
termination_by 3 * c.remaining

theorem forEach_finds (c : Cursor) (hc : c.WellFormed) :
    Finds (forEach c) fun s next => c.Took s.words next ∧ s.Canonical := by
  rw [forEach]
  refine (finds_expect hc rfl (by decide)).bind fun word next h hword => ?_
  refine (finds_expectName hword.wellFormed _).bind fun n next h hn => ?_
  refine (finds_expect hn.wellFormed rfl (by decide)).bind fun _ next h hin => ?_
  refine (finds_expr hin.wellFormed).bind fun items next h hitems => ?_
  refine (finds_expect hitems.1.wellFormed rfl (by decide)).bind fun _ next h hdo => ?_
  refine (block_finds _ next hdo.wellFormed).bind fun body next h hbody => ?_
  refine (finds_expect hbody.1.wellFormed rfl (by decide)).bind fun _ next h hend => ?_
  exact .pure ⟨hword.trans (hn.trans (hin.trans (hitems.1.trans (hdo.trans
    (hbody.1.trans hend))))), hitems.2, hbody.2.1⟩
termination_by 3 * c.remaining

theorem whileLoop_finds (c : Cursor) (hc : c.WellFormed) :
    Finds (whileLoop c) fun s next => c.Took s.words next ∧ s.Canonical := by
  rw [whileLoop]
  refine (finds_expect hc rfl (by decide)).bind fun word next h hword => ?_
  refine (finds_expr hword.wellFormed).bind fun condition next h hcondition => ?_
  refine (finds_expect hcondition.1.wellFormed rfl (by decide)).bind fun _ next h hdo => ?_
  refine (block_finds _ next hdo.wellFormed).bind fun body next h hbody => ?_
  refine (finds_expect hbody.1.wellFormed rfl (by decide)).bind fun _ next h hend => ?_
  exact .pure ⟨hword.trans (hcondition.1.trans (hdo.trans (hbody.1.trans hend))),
    hcondition.2, hbody.2.1⟩
termination_by 3 * c.remaining

end

/-! ## Programs -/

theorem finds_field (hc : c.WellFormed) :
    Finds c.field fun f next => c.Took f.words next ∧ ∀ e ∈ f.value, e.Canonical := by
  rw [field]
  refine (finds_expect hc rfl (by decide)).bind fun word next h hword => ?_
  refine (finds_expectName hword.wellFormed _).bind fun n next h hn => ?_
  refine (finds_expectFor hn.wellFormed rfl (by decide) _).bind fun _ next h hcolon => ?_
  refine (finds_expectName hcolon.wellFormed _).bind fun typeName next h htype => ?_
  refine (finds_firstValue htype.wellFormed).bind fun value next h hvalue => ?_
  refine (finds_expect hvalue.1.wellFormed rfl (by decide)).bind fun _ next h hend => ?_
  exact .pure ⟨hword.trans (hn.trans (hcolon.trans (htype.trans (hvalue.1.trans hend)))), hvalue.2⟩

/-- Parameters, of which there is one at least, are taken with their words. -/
theorem finds_parameters (c : Cursor) (hc : c.WellFormed) :
    Finds c.parameters fun list next => ∃ first others,
      list = first :: others ∧ c.Took (Method.parametersWords first others) next := by
  rw [parameters]
  refine (finds_expectName hc _).bind fun n next h hn => ?_
  refine (finds_expect hn.wellFormed rfl (by decide)).bind fun _ next h hcolon => ?_
  refine (finds_expectName hcolon.wellFormed _).bind fun typeName next h htype => ?_
  have hfirst := hn.trans (hcolon.trans htype)
  change Finds (if next.kind = .comma then _ else _) _
  split
  · refine (finds_expect htype.wellFormed rfl (by decide)).bind fun _ next h hcomma => ?_
    refine (finds_parameters next hcomma.wellFormed).bind fun list last h hlist => ?_
    obtain ⟨second, others, rfl, hothers⟩ := hlist
    exact .pure ⟨_, _, rfl, hfirst.trans (hcomma.trans hothers)⟩
  · exact .pure ⟨_, _, rfl, hfirst⟩
termination_by c.remaining

theorem finds_parameterList (hc : c.WellFormed) :
    Finds c.parameterList fun list next => c.Took (Method.parameterListWords list) next := by
  rw [parameterList]
  refine (finds_expect hc rfl (by decide)).bind fun _ next h hopen => ?_
  change Finds (if next.kind = .closeParen then _ else _) _
  split
  · refine (finds_expect hopen.wellFormed rfl (by decide)).bind fun _ last h hclose => ?_
    exact .pure (hopen.trans hclose)
  · refine (finds_parameters next hopen.wellFormed).bind fun list mid h hlist => ?_
    obtain ⟨first, others, rfl, hothers⟩ := hlist
    refine (finds_expectFor hothers.wellFormed rfl (by decide) _).bind fun _ last h hclose => ?_
    exact .pure (hopen.trans (hothers.trans hclose))

theorem finds_method (hc : c.WellFormed) :
    Finds c.method fun m next => c.Took m.words next ∧ Stmt.AllCanonical m.body := by
  rw [method]
  refine (finds_expect hc rfl (by decide)).bind fun word next h hword => ?_
  refine (finds_expectName hword.wellFormed _).bind fun n next h hn => ?_
  refine (finds_parameterList hn.wellFormed).bind fun list next h hlist => ?_
  refine (finds_typeMark hlist.wellFormed _).bind fun typeName next h htype => ?_
  refine (finds_expect htype.wellFormed rfl (by decide)).bind fun _ next h hdo => ?_
  refine (block_finds _ next hdo.wellFormed).bind fun body next h hbody => ?_
  refine (finds_expect hbody.1.wellFormed rfl (by decide)).bind fun _ next h hend => ?_
  exact .pure ⟨hword.trans (hn.trans (hlist.trans (htype.trans (hdo.trans (hbody.1.trans hend))))),
    hbody.2.1⟩

/-- Methods are read up to the end of the text. -/
theorem finds_methods (c : Cursor) (hc : c.WellFormed) :
    Finds c.methods fun ms next => c.Took (ms.flatMap Method.words) next ∧
      (∀ m ∈ ms, Stmt.AllCanonical m.body) ∧ next.kind = .eof := by
  rw [methods]
  split
  · split
    · refine (finds_method hc).bind fun first next h hfirst => ?_
      refine (finds_methods next hfirst.1.wellFormed).bind fun others last h hothers => ?_
      exact .pure ⟨hfirst.1.trans hothers.1, List.forall_mem_cons.mpr ⟨hfirst.2, hothers.2.1⟩,
        hothers.2.2⟩
    · exact .fail _
    · exact .fail _
  · next htokens =>
    refine .pure ⟨.refl hc, fun m hm => absurd hm List.not_mem_nil, ?_⟩
    rwa [hasTokens, bne_iff_ne, not_not] at htokens
termination_by c.remaining

theorem finds_fields (c : Cursor) (hc : c.WellFormed) :
    Finds c.fields fun fs next => c.Took (fs.flatMap Field.words) next ∧
      ∀ f ∈ fs, ∀ e ∈ f.value, e.Canonical := by
  rw [fields]
  split
  · refine (finds_field hc).bind fun first next h hfirst => ?_
    refine (finds_fields next hfirst.1.wellFormed).bind fun others last h hothers => ?_
    exact .pure ⟨hfirst.1.trans hothers.1, List.forall_mem_cons.mpr ⟨hfirst.2, hothers.2⟩⟩
  · exact .pure ⟨.refl hc, fun f hf => absurd hf List.not_mem_nil⟩
termination_by c.remaining

/-- No token is left behind a program. -/
theorem finds_program (hc : c.WellFormed) :
    Finds c.program fun p _ => p.Canonical ∧ p.words = c.written := by
  rw [program]
  refine (finds_fields c hc).bind fun fs mid h hfields => ?_
  refine (finds_methods mid hfields.1.wellFormed).bind fun ms last h hmethods => ?_
  have htook := hfields.1.trans hmethods.1
  -- no well-formed token marks the end of the text, so nothing is ahead of the cursor there
  have hend : last.ahead = [] := by
    rcases hahead : last.ahead with _ | ⟨token, tokens⟩
    · rfl
    · have htoken := htook.wellFormed token (by rw [hahead]; exact List.mem_cons_self ..)
      have hkind : token.kind = .eof := by
        rw [← hmethods.2.2, kind, current, hahead]
        rfl
      rw [Token.WellFormed, hkind] at htoken
      exact htoken.elim
  refine .pure ⟨⟨hfields.2, hmethods.2.1⟩, ?_⟩
  rw [htook.written, Cursor.written, hend]
  exact (List.append_nil _).symm

end Cursor

namespace Program

/-- A program that is read from well-formed tokens is canonical and keeps their words. -/
theorem words_of_parse {tokens : List Token} {close : Option Token} {file : String} {read : Program}
    (htokens : ∀ token ∈ tokens, token.WellFormed) (hclose : ∀ token ∈ close, token.kind = .eof)
    (h : Program.parse (tokens ++ close.toList) file = .ok read) :
    read.Canonical ∧ read.words = withoutEmptyElse (tokens.map Token.plain) := by
  have hahead : (Cursor.ofTokens (tokens ++ close.toList) file).ahead = tokens := by
    cases close with
    | some token =>
      rw [Cursor.ofTokens, Option.toList_some, List.getLast?_concat]
      simp only [if_pos (hclose token rfl), List.dropLast_concat]
    | none =>
      -- without a closing token the last one is not taken for it, since it is well-formed
      rw [Option.toList_none, List.append_nil, Cursor.ofTokens]
      split
      · next token hlast =>
        have hkind : ¬ token.kind = .eof := fun hkind => by
          have hwell := htokens token (List.mem_of_getLast? hlast)
          rw [Token.WellFormed, hkind] at hwell
          exact hwell
        rw [if_neg hkind]
      · next hlast => exact (List.getLast?_eq_none_iff.mp hlast).symm
  have hc : (Cursor.ofTokens (tokens ++ close.toList) file).WellFormed := by
    rwa [Cursor.WellFormed, hahead]
  have hfinds := Cursor.finds_program hc
  rw [Program.parse] at h
  split at h
  · next found hfound =>
    obtain rfl := Except.ok.inj h
    obtain ⟨hcanonical, hwords⟩ := hfinds found hfound
    rw [Cursor.written, hahead] at hwords
    exact ⟨hcanonical, hwords⟩
  · cases h

/-- Exactly the words of canonical programs are read. Each canonical program is read back from its
words, up to spans and slots; and what is read from well-formed tokens is a canonical program with
their words, up to the spelling of numbers and second bodies that are empty. -/
theorem parse_exact (file : String) :
    (∀ (p : Program) (tokens : List Token) (close : Token), p.Canonical →
      tokens.map Token.word = p.words → close.kind = .eof →
      ∃ read, Program.parse (tokens ++ [close]) file = .ok read ∧ read.bare = p.bare) ∧
    ∀ (tokens : List Token) (close : Option Token) (read : Program),
      (∀ token ∈ tokens, token.WellFormed) → (∀ token ∈ close, token.kind = .eof) →
      Program.parse (tokens ++ close.toList) file = .ok read →
      read.Canonical ∧ read.words = withoutEmptyElse (tokens.map Token.plain) :=
  ⟨fun _ _ _ hp htokens hclose => parse_words hp htokens hclose file,
    fun _ _ _ htokens hclose h => words_of_parse htokens hclose h⟩

/-- Tokens of a program with a number that is not spelled plainly and a second body that is empty:
`LET x: Integer = +07; DEF main() DO IF x < 1 + 2 * 3 DO ELSE END END`. -/
def choosing : List Token :=
  [⟨.letWord, "LET", default⟩, ⟨.identifier, "x", default⟩, ⟨.colon, ":", default⟩,
    ⟨.identifier, "Integer", default⟩, ⟨.assignment, "=", default⟩, ⟨.integer, "+07", default⟩,
    ⟨.semicolon, ";", default⟩, ⟨.defWord, "DEF", default⟩, ⟨.identifier, "main", default⟩,
    ⟨.openParen, "(", default⟩, ⟨.closeParen, ")", default⟩, ⟨.doWord, "DO", default⟩,
    ⟨.ifWord, "IF", default⟩, ⟨.identifier, "x", default⟩, ⟨.less, "<", default⟩,
    ⟨.integer, "1", default⟩, ⟨.plus, "+", default⟩, ⟨.integer, "2", default⟩,
    ⟨.star, "*", default⟩, ⟨.integer, "3", default⟩, ⟨.doWord, "DO", default⟩,
    ⟨.elseWord, "ELSE", default⟩, ⟨.endWord, "END", default⟩, ⟨.endWord, "END", default⟩]

/-- The same tokens as they are spelled plainly. -/
def choosingPlain : List Token := (withoutEmptyElse (choosing.map Token.plain)).map fun w =>
  ⟨w.1, w.2, default⟩

theorem choosing_wellFormed : ∀ token ∈ choosing, token.WellFormed := by
  have hplain : ∀ cs : List Char, cs ≠ [] → (∀ c ∈ cs, c.isDigit = true) →
      Token.WellFormed ⟨.integer, String.ofList cs, default⟩ := fun cs hne hdigit =>
    ⟨[], List.mem_cons_self .., cs, ⟨hne, hdigit⟩, rfl⟩
  simp only [choosing, List.forall_mem_cons]
  refine ⟨rfl, trivial, rfl, trivial, rfl, ?_, rfl, rfl, trivial, rfl, rfl, rfl, rfl, trivial, rfl,
    hplain ['1'] (by simp) (by simp), rfl, hplain ['2'] (by simp) (by simp), rfl,
    hplain ['3'] (by simp) (by simp), rfl, rfl, rfl, rfl, fun _ h => nomatch h⟩
  exact ⟨['+'], by simp [Text.signs], ['0', '7'], ⟨by simp, by simp⟩, rfl⟩

theorem choosing_read_exactly :
    ∃ p q, Program.parse (choosing ++ [⟨.eof, "EOF", default⟩]) "shell" = .ok p ∧ p.Canonical ∧
      p.words = choosingPlain.map Token.word ∧
      Program.parse (choosingPlain ++ [⟨.eof, "EOF", default⟩]) "shell" = .ok q ∧
      q.bare = p.bare := by
  have hread :
      (Program.parse (choosing ++ [⟨.eof, "EOF", default⟩]) "shell").toOption.isSome = true := by
    decide +kernel
  rcases hp : Program.parse (choosing ++ [⟨.eof, "EOF", default⟩]) "shell" with d | p
  · rw [hp] at hread
    cases hread
  · have hclose : ∀ token ∈ some (⟨.eof, "EOF", default⟩ : Token), token.kind = .eof := by
      rintro _ ⟨⟩
      rfl
    obtain ⟨hcanonical, hwords⟩ := (parse_exact "shell").2 choosing (some ⟨.eof, "EOF", default⟩) p
      choosing_wellFormed hclose hp
    have hplain : choosingPlain.map Token.word = p.words := by rw [hwords]; decide +kernel
    obtain ⟨q, hq, hbare⟩ := (parse_exact "shell").1 p choosingPlain ⟨.eof, "EOF", default⟩
      hcanonical hplain rfl
    exact ⟨p, q, hp, hcanonical, hplain.symm, hq, hbare⟩

end Program

end TeachLang
