import TeachLang.Proofs.Grammar

/-!
# Canonical trees are read back

The words of a canonical tree are read as that tree, up to spans and slots. `Cursor.Reads` says that
something good is read from a cursor and which words are left behind it; it is put together along
the way that reading goes.

The words of an expression alone do not say where reading it ends: what follows may go on with it.
So `Cursor.expr_reads` is about the expression as the left operand of whatever follows, and
`Cursor.reads_expr` is the case in which nothing does.
-/

namespace TeachLang

/-! ## Powers and first words -/

namespace Power

variable {p q r : Power}

theorem not_lt_default (p : Power) : ¬ p < .default := Nat.not_lt_zero p.rank

theorem not_lt_self (p : Power) : ¬ p < p := Nat.lt_irrefl p.rank

theorem not_lt_of_lt (hpq : p < q) : ¬ q < p := Nat.lt_asymm hpq

theorem lt_of_lt_of_not_lt (hpq : p < q) (hrq : ¬ r < q) : p < r :=
  Nat.lt_of_lt_of_le hpq (Nat.not_lt.mp hrq)

theorem not_lt_of_not_lt_of_lt (hpr : ¬ p < r) (hpq : p < q) : ¬ q < r := fun hqr =>
  hpr (Nat.lt_trans hpq hqr)

end Power

/-- The kind of the first of some words, or that of the end of the text. -/
def headKind (ws : List Word) : Kind := (ws.head?.map Prod.fst).getD .eof

theorem Literal.startsOperand_word (value : Literal) : value.word.1.startsOperand = true := by
  cases value with
  | boolean b => cases b <;> rfl
  | _ => rfl

namespace Expr

theorem default_lt_power (e : Expr) : Power.default < e.power := by
  cases e with
  | binary operator => exact operator.default_lt_power
  | _ => exact Nat.succ_pos _

theorem power_of_not_binary (e : Expr) (h : e.isBinary = false) : e.power = .member := by
  cases e with
  | binary => cases h
  | _ => rfl

theorem power_lt_member (e : Expr) (h : e.isBinary = true) : e.power < .member := by
  cases e with
  | binary operator => exact operator.power_lt_member
  | _ => cases h

/-- An expression begins with a word that can begin an operand. -/
theorem startsOperand_headKind : ∀ (e : Expr) (rest : List Word),
    (headKind (e.words ++ rest)).startsOperand = true
  | literal value _ _, _ => value.startsOperand_word
  | group .., _ | name .., _ | call .., _ => rfl
  | binary _ left _ _ _, rest => by
    rw [words, List.append_assoc]
    exact left.startsOperand_headKind _
  | member receiver _ _ _, rest | methodCall receiver _ _ _ _, rest => by
    rw [words, List.append_assoc]
    exact receiver.startsOperand_headKind _

theorem headKind_ne {kind : Kind} (e : Expr) (h : kind.startsOperand = false) (rest : List Word) :
    headKind (e.words ++ rest) ≠ kind := by
  intro heq
  have hstarts := e.startsOperand_headKind rest
  rw [heq, h] at hstarts
  cases hstarts

theorem headKind_argumentWords (arguments : List Expr) (ws : List Word) :
    headKind (argumentWords arguments ++ ws) = .openParen := by
  cases arguments <;> rfl

theorem not_lt_moreWords (p : Power) (es : List Expr) (rest : List Word) :
    ¬ p < (headKind (moreWords es ++ Kind.closeParen.word :: rest)).power := by
  cases es <;> exact p.not_lt_default

end Expr

namespace Cursor

/-- The words ahead of a cursor. -/
def words (c : Cursor) : List Word := c.ahead.map Token.word

/-- Something is read that is as it should be, and behind it stand the given words. -/
def Reads {α : Type} {n : Nat} (result : Except Failure (Read n α)) (good : α → Prop)
    (rest : List Word) : Prop :=
  ∃ read, result = .ok read ∧ good read.value ∧ read.next.words = rest

variable {α β : Type} {n k : Nat} {good : α → Prop} {c next : Cursor} {w : Word}
  {ws rest last : List Word}

theorem Reads.bind {good' : β → Prop} {first : Except Failure (Read n α)}
    {andThen : Read n α → Except Failure (Read k β)} (h : Reads first good rest)
    (hnext : ∀ value next shorter, good value → next.words = rest →
      Reads (andThen ⟨value, next, shorter⟩) good' last) :
    Reads (first >>= andThen) good' last := by
  obtain ⟨⟨value, next, shorter⟩, rfl, hvalue, hwords⟩ := h
  exact hnext value next shorter hvalue hwords

theorem Reads.pure {value : α} {shorter : next.remaining < n} (hvalue : good value)
    (hwords : next.words = rest) : Reads (Pure.pure ⟨value, next, shorter⟩) good rest :=
  ⟨_, rfl, hvalue, hwords⟩

theorem kind_eq (c : Cursor) : c.kind = headKind c.words := by
  obtain ⟨before, ahead, closingValue, closingSpan⟩ := c
  cases ahead <;> rfl

theorem take?_of_words (h : c.words = w :: ws) :
    ∃ token next shorter, c.take? = some ⟨token, next, shorter⟩ ∧ token.word = w ∧
      next.words = ws := by
  obtain ⟨before, ahead, closingValue, closingSpan⟩ := c
  cases ahead with
  | nil => cases h
  | cons token tokens =>
    obtain ⟨hword, hwords⟩ := List.cons.inj h
    exact ⟨token, ⟨token.span.stop, tokens, closingValue, closingSpan⟩, _, rfl, hword, hwords⟩

/-- The word ahead is taken. -/
theorem reads_expectOr (h : c.words = w :: ws) (diagnostic : Diagnostic) :
    Reads (c.expectOr w.1 diagnostic) (fun token => token.word = w) ws := by
  obtain ⟨token, next, shorter, htake, hword, hwords⟩ := take?_of_words h
  refine ⟨⟨token, next, shorter⟩, ?_, hword, hwords⟩
  rw [expectOr, htake]
  exact if_pos (congrArg Prod.fst hword)

theorem reads_expect {kind : Kind} (h : c.words = kind.word :: ws) :
    Reads (c.expect kind) (fun token => token.word = kind.word) ws := reads_expectOr h _

theorem reads_expectFor {kind : Kind} (h : c.words = kind.word :: ws) (message : String) :
    Reads (c.expectFor kind message) (fun token => token.word = kind.word) ws := reads_expectOr h _

theorem reads_expectName {n : String} (h : c.words = (.identifier, n) :: ws) (message : String) :
    Reads (c.expectName message) (fun name => name = n) ws := by
  refine (reads_expectOr h (c.unexpectedFor message)).bind fun token next shorter hword hwords => ?_
  exact .pure (congrArg Prod.snd hword) hwords

/-! ## Operands -/

/-- A constant is read back from its plain spelling. -/
theorem literal_of_word {token : Token} {value : Literal} (h : token.word = value.word)
    (hvalue : value.Spellable) : token.literal = .ok value := by
  obtain ⟨kind, text, span⟩ := token
  cases value with
  | nil | string =>
    obtain ⟨rfl, rfl⟩ := Prod.mk.inj h
    rfl
  | boolean b =>
    cases b <;> obtain ⟨rfl, rfl⟩ := Prod.mk.inj h <;> rfl
  | integer n =>
    obtain ⟨rfl, rfl⟩ := Prod.mk.inj h
    simp only [Token.literal, Text.integer?_integerText]
  | decimal d =>
    obtain ⟨rfl, rfl⟩ := Prod.mk.inj h
    simp only [Token.literal, Decimal.read?_positional hvalue.1 hvalue.2]
  | character x =>
    obtain ⟨rfl, rfl⟩ := Prod.mk.inj h
    simp only [Token.literal, String.toList_ofList]

theorem reads_literal {value : Literal} (hvalue : value.Spellable) (h : c.words = value.word :: ws)
    (ty : Option Ty) (span : Span) :
    Reads (operand c) (fun e => e.bare = (Expr.literal value ty span).bare) ws := by
  obtain ⟨token, next, shorter, htake, hword, hwords⟩ := take?_of_words h
  have hliteral : c.literal = .ok ⟨.literal value none token.span, next, shorter⟩ := by
    rw [literal, htake]
    simp only [literal_of_word hword hvalue]
  have hkind : token.kind = value.word.1 := congrArg Prod.fst hword
  have hstarts := Literal.startsOperand_word value
  rw [← hkind] at hstarts
  rw [operand, htake]
  refine ⟨⟨.literal value none token.span, next, shorter⟩, ?_, rfl, hwords⟩
  rw [← hliteral]
  cases value with
  | boolean b => cases b <;> simp only [hkind] <;> rfl
  | _ => simp only [hkind]; rfl

/-- What is read as an operand is the left operand of what follows. -/
theorem Reads.thenOperators {p : Power} {good good' : Expr → Prop} (h : Reads (operand c) good rest)
    (hnext : ∀ left next, good left → next.words = rest →
      Reads (operators p left next) good' last) : Reads (expr p c) good' last := by
  rw [expr]
  refine h.bind fun left next shorter hleft hwords => ?_
  refine (hnext left next hleft hwords).bind fun whole next shorter hwhole hwords => ?_
  exact .pure hwhole hwords

/-! ## Expressions -/

/-- Reading stops where what follows holds on no more tightly than asked for. -/
theorem reads_stop {p : Power} {good : Expr → Prop} {left : Expr} (hleft : good left)
    (hwords : c.words = rest) (h : ¬ p < (headKind rest).power) :
    Reads (operators p left c) good rest := by
  rw [operators, kind_eq, hwords, if_neg h]
  exact .pure hleft hwords

theorem ne_openParen {kind : Kind} (h : ¬ Power.member < kind.power) :
    kind ≠ .openParen := by
  rintro rfl
  exact h (by decide)

theorem reads_name {n : String} (h : c.words = (.identifier, n) :: rest)
    (hrest : headKind rest ≠ .openParen) :
    Reads (operand c) (fun e => e.bare = .name n none default) rest := by
  obtain ⟨⟨kind, text, span⟩, next, shorter, htake, hword, hwords⟩ := take?_of_words h
  obtain ⟨rfl, rfl⟩ := Prod.mk.inj hword
  rw [← hwords, ← kind_eq] at hrest
  rw [operand, htake]
  simp only [if_neg hrest]
  exact .pure rfl hwords

theorem reads_call {n : String} {arguments' : List Expr}
    (h : c.words = (.identifier, n) :: ws) (hparen : headKind ws = .openParen)
    (hread : ∀ next : Cursor, next.words = ws →
      Reads (arguments next) (fun es => Expr.allBare es = Expr.allBare arguments') rest) :
    Reads (operand c) (fun e => e.bare = .call n (Expr.allBare arguments') none default) rest := by
  obtain ⟨⟨kind, text, span⟩, next, shorter, htake, hword, hwords⟩ := take?_of_words h
  obtain ⟨rfl, htext⟩ := Prod.mk.inj hword
  obtain rfl : n = text := htext.symm
  have hkind : next.kind = .openParen := by rw [kind_eq, hwords, hparen]
  rw [operand, htake]
  simp only [if_pos hkind]
  refine (hread next hwords).bind fun es last shorter hes hwords => ?_
  exact .pure (congrArg (Expr.call n · none default) hes) hwords

theorem reads_group {inner : Expr} (h : c.words = Kind.openParen.word :: ws)
    (hread : ∀ next : Cursor, next.words = ws →
      Reads (expr .default next) (fun e => e.bare = inner.bare) (Kind.closeParen.word :: rest)) :
    Reads (operand c) (fun e => e.bare = .group inner.bare none default) rest := by
  obtain ⟨⟨kind, text, span⟩, next, shorter, htake, hword, hwords⟩ := take?_of_words h
  obtain ⟨rfl, rfl⟩ := Prod.mk.inj hword
  rw [operand, htake]
  refine (hread next hwords).bind fun e next shorter he hwords => ?_
  refine (reads_expectFor hwords _).bind fun token next shorter _ hwords => ?_
  exact .pure (congrArg (Expr.group · none default) he) hwords

/-- A dot and a field behind a receiver are read. -/
theorem reads_member {receiver : Expr} {n : String}
    (h : c.words = Kind.dot.word :: (.identifier, n) :: rest)
    (hrest : headKind rest ≠ .openParen) :
    Reads (member receiver c) (fun e => e.bare = .member receiver.bare n none default) rest := by
  obtain ⟨token, next, shorter, htake, hword, hwords⟩ := take?_of_words h
  rw [member, htake]
  refine (reads_expectOr hwords _).bind fun token last shorter hword hlast => ?_
  have hkind : ¬ last.kind = .openParen := by rwa [kind_eq, hlast]
  change Reads (if last.kind = .openParen then _ else _) _ _
  rw [if_neg hkind]
  refine .pure ?_ hlast
  exact congrArg (Expr.member receiver.bare · none default) (congrArg Prod.snd hword)

/-- A dot and a call of a method behind a receiver are read. -/
theorem reads_methodCall {receiver : Expr} {n : String} {arguments' : List Expr}
    (h : c.words = Kind.dot.word :: (.identifier, n) :: ws) (hparen : headKind ws = .openParen)
    (hread : ∀ next : Cursor, next.words = ws →
      Reads (arguments next) (fun es => Expr.allBare es = Expr.allBare arguments') rest) :
    Reads (member receiver c)
      (fun e => e.bare = .methodCall receiver.bare n (Expr.allBare arguments') none default)
      rest := by
  obtain ⟨token, next, shorter, htake, hword, hwords⟩ := take?_of_words h
  rw [member, htake]
  refine (reads_expectOr hwords _).bind fun token last shorter hword hlast => ?_
  have hkind : last.kind = .openParen := by rw [kind_eq, hlast, hparen]
  change Reads (if last.kind = .openParen then _ else _) _ _
  rw [if_pos hkind]
  refine (hread last hlast).bind fun es last shorter hes hwords => ?_
  refine .pure ?_ hwords
  change Expr.methodCall receiver.bare token.value (Expr.allBare es) none default = _
  rw [hes, show token.value = n from congrArg Prod.snd hword]

/-- An operator and its right operand are read. -/
theorem reads_binary {power : Power} {operator : Operator} {left right : Expr}
    (h : c.words = operator.kind.word :: ws)
    (hread : ∀ next : Cursor, next.words = ws →
      Reads (expr power next) (fun e => e.bare = right.bare) rest) :
    Reads (binary power left c)
      (fun e => e.bare = .binary operator left.bare right.bare none default) rest := by
  obtain ⟨⟨kind, text, span⟩, next, shorter, htake, hword, hwords⟩ := take?_of_words h
  obtain ⟨rfl, -⟩ := Prod.mk.inj hword
  rw [binary, htake]
  simp only [operator.ofKind?_kind]
  refine (hread next hwords).bind fun e last shorter he hwords => ?_
  exact .pure (congrArg (Expr.binary operator left.bare · none default) he) hwords

/-- Behind a member reading goes on with the member as the left operand. -/
theorem Reads.thenMember {p : Power} {good good' : Expr → Prop} {left : Expr}
    (h : Reads (member left c) good rest) (hkind : c.kind = .dot) (hp : p < .member)
    (hnext : ∀ left next, good left → next.words = rest →
      Reads (operators p left next) good' last) : Reads (operators p left c) good' last := by
  have hpower : p < c.kind.power := by rw [hkind]; exact hp
  rw [operators, if_pos hpower, if_pos hkind]
  refine h.bind fun left next shorter hleft hwords => ?_
  refine (hnext left next hleft hwords).bind fun whole next shorter hwhole hwords => ?_
  exact .pure hwhole hwords

/-- Behind a right operand reading goes on with the whole as the left operand. -/
theorem Reads.thenBinary {p : Power} {good good' : Expr → Prop} {left : Expr} {operator : Operator}
    (h : Reads (binary operator.power left c) good rest) (hkind : c.kind = operator.kind)
    (hp : p < operator.power)
    (hnext : ∀ left next, good left → next.words = rest →
      Reads (operators p left next) good' last) : Reads (operators p left c) good' last := by
  have hpower : p < c.kind.power := by rw [hkind]; exact hp
  have hdot : ¬ c.kind = .dot := by rw [hkind]; cases operator <;> decide
  have hsome : (Operator.ofKind? c.kind).isSome = true := by rw [hkind, operator.ofKind?_kind]; rfl
  rw [operators, if_pos hpower, if_neg hdot, if_pos hsome, hkind]
  refine h.bind fun left next shorter hleft hwords => ?_
  refine (hnext left next hleft hwords).bind fun whole next shorter hwhole hwords => ?_
  exact .pure hwhole hwords

mutual

/-- A canonical expression is read as the left operand of what follows. -/
theorem expr_reads : ∀ {e : Expr}, e.Canonical → ∀ {p : Power} {c : Cursor} {good : Expr → Prop}
    {rest last : List Word}, c.words = e.words ++ rest → p < e.power →
      ¬ e.power < (headKind rest).power →
      (∀ left next, left.bare = e.bare → next.words = rest →
        Reads (operators p left next) good last) → Reads (expr p c) good last
  | .literal value ty span, hcanonical, p, c, good, rest, last, hc, hp, hrest, hnext =>
    (reads_literal hcanonical hc ty span).thenOperators hnext
  | .group inner ty span, hcanonical, p, c, good, rest, last, hc, hp, hrest, hnext => by
    rw [Expr.words, List.cons_append, List.append_assoc] at hc
    refine (reads_group hc fun next hwords => ?_).thenOperators hnext
    exact expr_reads (e := inner) hcanonical hwords inner.default_lt_power (Power.not_lt_default _)
      fun left next hleft hwords => reads_stop hleft hwords (Power.not_lt_default _)
  | .name n binding span, hcanonical, p, c, good, rest, last, hc, hp, hrest, hnext =>
    (reads_name hc (ne_openParen hrest)).thenOperators hnext
  | .call n arguments callee span, hcanonical, p, c, good, rest, last, hc, hp, hrest, hnext =>
    (reads_call hc (Expr.headKind_argumentWords arguments rest) fun next hwords =>
      arguments_reads hcanonical hwords).thenOperators hnext
  | .member receiver n binding span, hcanonical, p, c, good, rest, last, hc, hp, hrest, hnext => by
    obtain ⟨hreceiver, hbinary⟩ := hcanonical
    -- the receiver is the left operand of the dot, and the member that of what follows
    have hpower := receiver.power_of_not_binary hbinary
    rw [Expr.words, List.append_assoc] at hc
    refine expr_reads hreceiver hc (hpower ▸ hp) (hpower ▸ Power.not_lt_self .member)
      fun left next hleft hwords => ?_
    have hkind : next.kind = .dot := by rw [kind_eq, hwords]; rfl
    refine (reads_member hwords (ne_openParen hrest)).thenMember hkind hp ?_
    rw [hleft]
    exact hnext
  | .methodCall receiver n arguments callee span, hcanonical, p, c, good, rest, last, hc, hp, hrest,
    hnext => by
    obtain ⟨hreceiver, hbinary, harguments⟩ := hcanonical
    have hpower := receiver.power_of_not_binary hbinary
    rw [Expr.words, List.append_assoc] at hc
    refine expr_reads hreceiver hc (hpower ▸ hp) (hpower ▸ Power.not_lt_self .member)
      fun left next hleft hwords => ?_
    have hkind : next.kind = .dot := by rw [kind_eq, hwords]; rfl
    refine (reads_methodCall hwords (Expr.headKind_argumentWords arguments rest) fun next hwords =>
      arguments_reads harguments hwords).thenMember hkind hp ?_
    rw [hleft]
    exact hnext
  | .binary operator left right ty span, hcanonical, p, c, good, rest, last, hc, hp, hrest,
    hnext => by
    obtain ⟨hleft, hright, hloose, htight⟩ := hcanonical
    rw [Expr.words, List.append_assoc] at hc
    -- the left operand is not looser than the operator, so reading it ends in front of that; the
    -- right one is tighter, so reading it ends where the whole does
    refine expr_reads hleft hc (Power.lt_of_lt_of_not_lt hp hloose) hloose
      fun left' next hbare hwords => ?_
    have hkind : next.kind = operator.kind := by rw [kind_eq, hwords]; rfl
    have hwhole : Reads (binary operator.power left' next)
        (fun e => e.bare = (Expr.binary operator left right ty span).bare) rest := by
      rw [Expr.bare, ← hbare]
      exact reads_binary hwords fun next hwords =>
        expr_reads hright hwords htight (Power.not_lt_of_not_lt_of_lt hrest htight)
          fun right' next hbare hwords => reads_stop hbare hwords hrest
    exact hwhole.thenBinary hkind hp hnext

/-- Arguments are read, with their parentheses. -/
theorem arguments_reads : ∀ {es : List Expr}, Expr.AllCanonical es → ∀ {c : Cursor}
    {rest : List Word}, c.words = Expr.argumentWords es ++ rest →
      Reads (arguments c) (fun es' => Expr.allBare es' = Expr.allBare es) rest
  | [], hcanonical, c, rest, hc => by
    rw [arguments]
    refine (reads_expect hc).bind fun token next shorter _ hwords => ?_
    have hkind : next.kind = .closeParen := by rw [kind_eq, hwords]; rfl
    change Reads (if next.kind = .closeParen then _ else _) _ _
    rw [if_pos hkind]
    refine (reads_expect hwords).bind fun token next shorter _ hwords => ?_
    exact .pure rfl hwords
  | e :: es, hcanonical, c, rest, hc => by
    obtain ⟨he, hes⟩ := hcanonical
    rw [Expr.argumentWords, List.cons_append, List.append_assoc, List.append_assoc] at hc
    rw [arguments]
    refine (reads_expect hc).bind fun token next shorter _ hwords => ?_
    -- a parenthesis that closes begins no operand, so it would not be taken for an argument
    have hkind : ¬ next.kind = .closeParen := by
      rw [kind_eq, hwords]
      exact e.headKind_ne rfl _
    change Reads (if next.kind = .closeParen then _ else _) _ _
    rw [if_neg hkind]
    have hfirst : Reads (expr .default next) (fun e' => e'.bare = e.bare) _ :=
      expr_reads he hwords e.default_lt_power (Expr.not_lt_moreWords _ es rest)
        fun left next hleft hwords => reads_stop hleft hwords (Expr.not_lt_moreWords _ es rest)
    refine hfirst.bind fun e' next shorter hbare hwords => ?_
    refine (moreArguments_reads hes hwords).bind fun es' next shorter hbares hwords => ?_
    refine (reads_expectFor hwords _).bind fun token next shorter _ hwords => ?_
    exact .pure (congrArg₂ List.cons hbare hbares) hwords

/-- Further arguments are read. -/
theorem moreArguments_reads : ∀ {es : List Expr}, Expr.AllCanonical es → ∀ {c : Cursor}
    {rest : List Word}, c.words = Expr.moreWords es ++ Kind.closeParen.word :: rest →
      Reads (moreArguments c) (fun es' => Expr.allBare es' = Expr.allBare es)
        (Kind.closeParen.word :: rest)
  | [], hcanonical, c, rest, hc => by
    have hkind : ¬ c.kind = .comma := by rw [kind_eq, hc]; exact Kind.noConfusion
    rw [moreArguments, if_neg hkind]
    exact .pure rfl hc
  | e :: es, hcanonical, c, rest, hc => by
    obtain ⟨he, hes⟩ := hcanonical
    rw [Expr.moreWords, List.cons_append, List.append_assoc] at hc
    have hkind : c.kind = .comma := by rw [kind_eq, hc]; rfl
    rw [moreArguments, if_pos hkind]
    refine (reads_expect hc).bind fun token next shorter _ hwords => ?_
    have hfirst : Reads (expr .default next) (fun e' => e'.bare = e.bare) _ :=
      expr_reads he hwords e.default_lt_power (Expr.not_lt_moreWords _ es rest)
        fun left next hleft hwords => reads_stop hleft hwords (Expr.not_lt_moreWords _ es rest)
    refine hfirst.bind fun e' next shorter hbare hwords => ?_
    refine (moreArguments_reads hes hwords).bind fun es' next shorter hbares hwords => ?_
    exact .pure (congrArg₂ List.cons hbare hbares) hwords

end

/-- A canonical expression is read up to where nothing can go on with it. -/
theorem reads_expr {e : Expr} (he : e.Canonical) (h : c.words = e.words ++ rest)
    (hrest : (headKind rest).power = .default) :
    Reads (expr .default c) (fun e' => e'.bare = e.bare) rest := by
  have hnot : ∀ p : Power, ¬ p < (headKind rest).power := by
    rw [hrest]
    exact Power.not_lt_default
  exact expr_reads he h e.default_lt_power (hnot _) fun left next hleft hwords =>
    reads_stop hleft hwords (hnot _)

/-! ## Statements -/

theorem reads_typeMark {typeName : Option String} (h : c.words = markWords typeName ++ rest)
    (hrest : headKind rest ≠ .colon) (message : String) :
    Reads (c.typeMark message) (fun found => found = typeName) rest := by
  cases typeName with
  | none =>
    have hkind : ¬ c.kind = .colon := by rwa [kind_eq, h]
    rw [typeMark, if_neg hkind]
    exact .pure rfl h
  | some n =>
    have hkind : c.kind = .colon := by rw [kind_eq, h]; rfl
    rw [typeMark, if_pos hkind]
    refine (reads_expect h).bind fun token next shorter _ hwords => ?_
    refine (reads_expectName hwords _).bind fun found next shorter hfound hwords => ?_
    exact .pure (congrArg some hfound) hwords

theorem reads_firstValue {value : Option Expr} (hvalue : ∀ e ∈ value, e.Canonical)
    (h : c.words = valueWords value ++ Kind.semicolon.word :: rest) :
    Reads c.firstValue (fun found => found.map Expr.bare = value.map Expr.bare)
      (Kind.semicolon.word :: rest) := by
  cases value with
  | none =>
    have hkind : ¬ c.kind = .assignment := by rw [kind_eq, h]; exact Kind.noConfusion
    rw [firstValue, if_neg hkind]
    exact .pure rfl h
  | some e =>
    have hkind : c.kind = .assignment := by rw [kind_eq, h]; rfl
    rw [firstValue, if_pos hkind]
    refine (reads_expect h).bind fun token next shorter _ hwords => ?_
    refine (reads_expr (hvalue e rfl) hwords rfl).bind fun found next shorter hfound hwords => ?_
    exact .pure (congrArg some hfound) hwords

theorem reads_declaration {n : String} {typeName : Option String} {value : Option Expr}
    (hvalue : ∀ e ∈ value, e.Canonical)
    (h : c.words = Kind.letWord.word :: (.identifier, n) ::
      (markWords typeName ++ (valueWords value ++ Kind.semicolon.word :: rest))) :
    Reads c.declaration
      (fun s => s.bare = .declaration n typeName (value.map Expr.bare) none default) rest := by
  have hmark : headKind (valueWords value ++ Kind.semicolon.word :: rest) ≠ .colon := by
    cases value <;> exact Kind.noConfusion
  rw [declaration]
  refine (reads_expect h).bind fun token next shorter _ hwords => ?_
  refine (reads_expectName hwords _).bind fun found next shorter hn hwords => ?_
  refine (reads_typeMark hwords hmark _).bind fun mark next shorter hmark hwords => ?_
  refine (reads_firstValue hvalue hwords).bind fun e next shorter he hwords => ?_
  refine (reads_expect hwords).bind fun token next shorter _ hwords => ?_
  refine .pure ?_ hwords
  change Stmt.declaration found mark (e.map Expr.bare) none default = _
  rw [hn, hmark, he]

theorem reads_returns {value : Expr} (hvalue : value.Canonical)
    (h : c.words = Kind.returnWord.word :: (value.words ++ Kind.semicolon.word :: rest)) :
    Reads c.returns (fun s => s.bare = .returns value.bare default) rest := by
  rw [returns]
  refine (reads_expect h).bind fun token next shorter _ hwords => ?_
  refine (reads_expr hvalue hwords rfl).bind fun e next shorter he hwords => ?_
  refine (reads_expect hwords).bind fun token next shorter _ hwords => ?_
  exact .pure (congrArg (Stmt.returns · default) he) hwords

theorem reads_assignment {target value : Expr} (htarget : target.Canonical)
    (hvalue : value.Canonical)
    (h : c.words = target.words ++ (valueWords (some value) ++ Kind.semicolon.word :: rest)) :
    Reads c.expressionOrAssignment (fun s => s.bare = .assignment target.bare value.bare default)
      rest := by
  rw [expressionOrAssignment]
  refine (reads_expr htarget h rfl).bind fun e next shorter he hwords => ?_
  have hcanonical : ∀ e ∈ some value, e.Canonical := by
    rintro _ ⟨⟩
    exact hvalue
  refine (reads_firstValue hcanonical hwords).bind fun v next shorter hv hwords => ?_
  refine (reads_expect hwords).bind fun token next shorter _ hwords => ?_
  obtain ⟨v, rfl, hbare⟩ := Option.map_eq_some_iff.mp hv
  refine .pure ?_ hwords
  change Stmt.assignment e.bare v.bare default = _
  rw [he, hbare]

theorem reads_expression {e : Expr} (he : e.Canonical)
    (h : c.words = e.words ++ Kind.semicolon.word :: rest) :
    Reads c.expressionOrAssignment (fun s => s.bare = .expression e.bare default) rest := by
  rw [expressionOrAssignment]
  refine (reads_expr he h rfl).bind fun e' next shorter he' hwords => ?_
  have hnone : ∀ e ∈ (none : Option Expr), e.Canonical := fun e he => nomatch he
  refine (reads_firstValue hnone hwords).bind fun v next shorter hv hwords => ?_
  refine (reads_expect hwords).bind fun token next shorter _ hwords => ?_
  obtain rfl := Option.map_eq_none_iff.mp hv
  exact .pure (congrArg (Stmt.expression · default) he') hwords

/-- Where an operand can begin, no word of its own begins a statement. -/
theorem stmt_eq (h : c.kind.startsOperand = true) : c.stmt = c.expressionOrAssignment := by
  rw [stmt]
  split <;> simp_all [Kind.startsOperand]

/-- A statement begins with none of the words that close blocks. -/
theorem headKind_stmt (s : Stmt) (ws : List Word) :
    headKind (s.words ++ ws) ≠ .elseWord ∧ headKind (s.words ++ ws) ≠ .endWord ∧
      headKind (s.words ++ ws) ≠ .eof := by
  cases s with
  | expression e | assignment e =>
    rw [Stmt.words, List.append_assoc]
    exact ⟨e.headKind_ne rfl _, e.headKind_ne rfl _, e.headKind_ne rfl _⟩
  | _ => exact ⟨Kind.noConfusion, Kind.noConfusion, Kind.noConfusion⟩

/-- The second body of a conditional is read if its statements are. -/
theorem reads_elseBlock {ss : List Stmt}
    (h : c.words = Stmt.elseWords ss ++ Kind.endWord.word :: rest)
    (hread : ∀ next : Cursor, next.words = Stmt.allWords ss ++ Kind.endWord.word :: rest →
      Reads (block [.endWord] next) (fun ss' => Stmt.allBare ss' = Stmt.allBare ss)
        (Kind.endWord.word :: rest)) :
    Reads (elseBlock c) (fun ss' => Stmt.allBare ss' = Stmt.allBare ss)
      (Kind.endWord.word :: rest) := by
  cases ss with
  | nil =>
    have hkind : ¬ c.kind = .elseWord := by rw [kind_eq, h]; exact Kind.noConfusion
    rw [elseBlock, if_neg hkind]
    exact .pure rfl h
  | cons s ss =>
    have hkind : c.kind = .elseWord := by rw [kind_eq, h]; rfl
    rw [elseBlock, if_pos hkind]
    refine (reads_expect h).bind fun token next shorter _ hwords => ?_
    refine (hread next hwords).bind fun ss' next shorter hss hwords => ?_
    exact .pure hss hwords

/-- A conditional is read if its blocks are. -/
theorem reads_conditional {condition : Expr} {thenBody elseBody : List Stmt}
    (hcondition : condition.Canonical)
    (h : c.words = Kind.ifWord.word :: (condition.words ++ Kind.doWord.word ::
      (Stmt.allWords thenBody ++ (Stmt.elseWords elseBody ++ Kind.endWord.word :: rest))))
    (hthen : ∀ {next : Cursor} {ws : List Word}, next.words = Stmt.allWords thenBody ++ ws →
      headKind ws ∈ [Kind.elseWord, .endWord] → Reads (block [.elseWord, .endWord] next)
        (fun ss => Stmt.allBare ss = Stmt.allBare thenBody) ws)
    (helse : ∀ {next : Cursor} {ws : List Word}, next.words = Stmt.allWords elseBody ++ ws →
      headKind ws = .endWord → Reads (block [.endWord] next)
        (fun ss => Stmt.allBare ss = Stmt.allBare elseBody) ws) :
    Reads c.conditional (fun s => s.bare =
      .conditional condition.bare (Stmt.allBare thenBody) (Stmt.allBare elseBody) default)
      rest := by
  have hclose : headKind (Stmt.elseWords elseBody ++ Kind.endWord.word :: rest) ∈
      [Kind.elseWord, .endWord] := by
    cases elseBody
    · exact List.mem_cons_of_mem _ (List.mem_cons_self ..)
    · exact List.mem_cons_self ..
  rw [conditional]
  refine (reads_expect h).bind fun token next shorter _ hwords => ?_
  refine (reads_expr hcondition hwords rfl).bind fun e next shorter he hwords => ?_
  refine (reads_expect hwords).bind fun token next shorter _ hwords => ?_
  refine (hthen hwords hclose).bind fun ss next shorter hss hwords => ?_
  refine (reads_elseBlock hwords fun next hwords => helse hwords rfl).bind
    fun es next shorter hes hwords => ?_
  refine (reads_expect hwords).bind fun token next shorter _ hwords => ?_
  refine .pure ?_ hwords
  change Stmt.conditional e.bare (Stmt.allBare ss) (Stmt.allBare es) default = _
  rw [he, hss, hes]

/-- A loop over items is read if its block is. -/
theorem reads_forEach {n : String} {items : Expr} {body : List Stmt} (hitems : items.Canonical)
    (h : c.words = Kind.forWord.word :: (.identifier, n) :: Kind.inWord.word :: (items.words ++
      Kind.doWord.word :: (Stmt.allWords body ++ Kind.endWord.word :: rest)))
    (hbody : ∀ {next : Cursor} {ws : List Word}, next.words = Stmt.allWords body ++ ws →
      headKind ws = .endWord → Reads (block [.endWord] next)
        (fun ss => Stmt.allBare ss = Stmt.allBare body) ws) :
    Reads c.forEach (fun s => s.bare = .forEach n items.bare (Stmt.allBare body) default) rest := by
  rw [forEach]
  refine (reads_expect h).bind fun token next shorter _ hwords => ?_
  refine (reads_expectName hwords _).bind fun found next shorter hn hwords => ?_
  refine (reads_expect hwords).bind fun token next shorter _ hwords => ?_
  refine (reads_expr hitems hwords rfl).bind fun e next shorter he hwords => ?_
  refine (reads_expect hwords).bind fun token next shorter _ hwords => ?_
  refine (hbody hwords rfl).bind fun ss next shorter hss hwords => ?_
  refine (reads_expect hwords).bind fun token next shorter _ hwords => ?_
  refine .pure ?_ hwords
  change Stmt.forEach found e.bare (Stmt.allBare ss) default = _
  rw [hn, he, hss]

/-- A loop under a condition is read if its block is. -/
theorem reads_whileLoop {condition : Expr} {body : List Stmt} (hcondition : condition.Canonical)
    (h : c.words = Kind.whileWord.word :: (condition.words ++ Kind.doWord.word ::
      (Stmt.allWords body ++ Kind.endWord.word :: rest)))
    (hbody : ∀ {next : Cursor} {ws : List Word}, next.words = Stmt.allWords body ++ ws →
      headKind ws = .endWord → Reads (block [.endWord] next)
        (fun ss => Stmt.allBare ss = Stmt.allBare body) ws) :
    Reads c.whileLoop (fun s => s.bare = .whileLoop condition.bare (Stmt.allBare body) default)
      rest := by
  rw [whileLoop]
  refine (reads_expect h).bind fun token next shorter _ hwords => ?_
  refine (reads_expr hcondition hwords rfl).bind fun e next shorter he hwords => ?_
  refine (reads_expect hwords).bind fun token next shorter _ hwords => ?_
  refine (hbody hwords rfl).bind fun ss next shorter hss hwords => ?_
  refine (reads_expect hwords).bind fun token next shorter _ hwords => ?_
  refine .pure ?_ hwords
  change Stmt.whileLoop e.bare (Stmt.allBare ss) default = _
  rw [he, hss]

mutual

/-- Canonical statements are read. -/
theorem stmt_reads : ∀ {s : Stmt}, s.Canonical → ∀ {c : Cursor} {rest : List Word},
    c.words = s.words ++ rest → Reads (stmt c) (fun s' => s'.bare = s.bare) rest
  | .expression e span, hcanonical, c, rest, hc => by
    rw [Stmt.words, List.append_assoc] at hc
    have hkind : c.kind.startsOperand = true := by
      rw [kind_eq, hc]
      exact e.startsOperand_headKind _
    rw [stmt_eq hkind]
    exact reads_expression hcanonical hc
  | .assignment target value span, ⟨htarget, hvalue⟩, c, rest, hc => by
    rw [Stmt.words, List.append_assoc, List.append_assoc] at hc
    have hkind : c.kind.startsOperand = true := by
      rw [kind_eq, hc]
      exact target.startsOperand_headKind _
    rw [stmt_eq hkind]
    exact reads_assignment htarget hvalue hc
  | .declaration n typeName value binding span, hcanonical, c, rest, hc => by
    have hkind : c.kind = .letWord := by rw [kind_eq, hc]; rfl
    rw [Stmt.words, List.cons_append, List.cons_append, List.append_assoc, List.append_assoc] at hc
    rw [stmt, hkind]
    exact reads_declaration hcanonical hc
  | .returns value span, hcanonical, c, rest, hc => by
    have hkind : c.kind = .returnWord := by rw [kind_eq, hc]; rfl
    rw [Stmt.words, List.cons_append, List.append_assoc] at hc
    rw [stmt, hkind]
    exact reads_returns hcanonical hc
  | .conditional condition thenBody elseBody span, ⟨hcondition, hthen, helse⟩, c, rest, hc => by
    have hkind : c.kind = .ifWord := by rw [kind_eq, hc]; rfl
    simp only [Stmt.words, List.cons_append, List.append_assoc] at hc
    rw [stmt, hkind]
    exact reads_conditional hcondition hc
      (fun hwords hclose => block_reads hthen _ hwords (List.Subset.refl _) hclose)
      fun hwords hclose => block_reads helse _ hwords (List.subset_cons_self ..)
        (List.mem_singleton.mpr hclose)
  | .forEach n items body span, ⟨hitems, hbody⟩, c, rest, hc => by
    have hkind : c.kind = .forWord := by rw [kind_eq, hc]; rfl
    simp only [Stmt.words, List.cons_append, List.append_assoc] at hc
    rw [stmt, hkind]
    exact reads_forEach hitems hc fun hwords hclose =>
      block_reads hbody _ hwords (List.subset_cons_self ..) (List.mem_singleton.mpr hclose)
  | .whileLoop condition body span, ⟨hcondition, hbody⟩, c, rest, hc => by
    have hkind : c.kind = .whileWord := by rw [kind_eq, hc]; rfl
    simp only [Stmt.words, List.cons_append, List.append_assoc] at hc
    rw [stmt, hkind]
    exact reads_whileLoop hcondition hc fun hwords hclose =>
      block_reads hbody _ hwords (List.subset_cons_self ..) (List.mem_singleton.mpr hclose)

/-- Canonical statements are read up to the word that closes them. -/
theorem block_reads : ∀ {ss : List Stmt}, Stmt.AllCanonical ss → ∀ (closers : List Kind)
    {c : Cursor} {rest : List Word}, c.words = Stmt.allWords ss ++ rest →
      closers ⊆ [.elseWord, .endWord] → headKind rest ∈ closers →
      Reads (block closers c) (fun ss' => Stmt.allBare ss' = Stmt.allBare ss) rest
  | [], hcanonical, closers, c, rest, hc, hclosers, hrest => by
    have hkind : c.kind ∈ closers := by rwa [kind_eq, hc]
    rw [block, if_pos hkind]
    exact .pure rfl hc
  | s :: ss, ⟨hs, hss⟩, closers, c, rest, hc, hclosers, hrest => by
    rw [Stmt.allWords, List.append_assoc] at hc
    obtain ⟨helse, hend, heof⟩ := headKind_stmt s (Stmt.allWords ss ++ rest)
    rw [← hc, ← kind_eq] at helse hend heof
    -- whatever closes a block begins no statement
    have hkind : c.kind ∉ closers := fun hmem => by
      rcases List.mem_cons.mp (hclosers hmem) with h | h
      · exact helse h
      · exact hend (List.mem_singleton.mp h)
    have htokens : c.hasTokens = true := bne_iff_ne.mpr heof
    rw [block, if_neg hkind, if_pos htokens]
    refine (stmt_reads hs hc).bind fun s' next shorter hs' hwords => ?_
    refine (block_reads hss closers hwords hclosers hrest).bind
      fun ss' next shorter hss' hwords => ?_
    exact .pure (congrArg₂ List.cons hs' hss') hwords

end

/-! ## Programs -/

theorem reads_field {f : Field} (hf : ∀ e ∈ f.value, e.Canonical) (h : c.words = f.words ++ rest) :
    Reads c.field (fun f' => f'.bare = f.bare) rest := by
  simp only [Field.words, List.cons_append, List.append_assoc] at h
  rw [field]
  refine (reads_expect h).bind fun token next shorter _ hwords => ?_
  refine (reads_expectName hwords _).bind fun n next shorter hn hwords => ?_
  refine (reads_expectFor hwords _).bind fun token next shorter _ hwords => ?_
  refine (reads_expectName hwords _).bind fun typeName next shorter htype hwords => ?_
  refine (reads_firstValue hf hwords).bind fun e next shorter he hwords => ?_
  refine (reads_expect hwords).bind fun token next shorter _ hwords => ?_
  refine .pure ?_ hwords
  change Field.mk n typeName (e.map Expr.bare) none default = _
  rw [hn, htype, he, Field.bare]

theorem reads_parameters : ∀ {others : List (String × String)} {first : String × String}
    {c : Cursor} {rest : List Word}, c.words = Method.parametersWords first others ++ rest →
      headKind rest ≠ .comma → Reads c.parameters (fun found => found = first :: others) rest
  | [], first, c, rest, hc, hrest => by
    rw [parameters]
    refine (reads_expectName hc _).bind fun n next shorter hn hwords => ?_
    refine (reads_expect hwords).bind fun token next shorter _ hwords => ?_
    refine (reads_expectName hwords _).bind fun typeName next shorter htype hwords => ?_
    have hkind : ¬ next.kind = .comma := by rwa [kind_eq, hwords]
    change Reads (if next.kind = .comma then _ else _) _ _
    rw [if_neg hkind]
    refine .pure ?_ hwords
    rw [hn, htype]
  | second :: others, first, c, rest, hc, hrest => by
    rw [Method.parametersWords, List.append_assoc] at hc
    rw [parameters]
    refine (reads_expectName hc _).bind fun n next shorter hn hwords => ?_
    refine (reads_expect hwords).bind fun token next shorter _ hwords => ?_
    refine (reads_expectName hwords _).bind fun typeName next shorter htype hwords => ?_
    have hkind : next.kind = .comma := by rw [kind_eq, hwords]; rfl
    change Reads (if next.kind = .comma then _ else _) _ _
    rw [if_pos hkind]
    refine (reads_expect hwords).bind fun token next shorter _ hwords => ?_
    refine (reads_parameters hwords hrest).bind fun found next shorter hfound hwords => ?_
    refine .pure ?_ hwords
    change (n, typeName) :: found = _
    rw [hn, htype, hfound]

theorem headKind_parametersWords (first : String × String) (others : List (String × String))
    (ws : List Word) : headKind (Method.parametersWords first others ++ ws) = .identifier := by
  cases others <;> rfl

theorem reads_parameterList {list : List (String × String)}
    (h : c.words = Method.parameterListWords list ++ rest) :
    Reads c.parameterList (fun found => found = list) rest := by
  rw [parameterList]
  cases list with
  | nil =>
    refine (reads_expect h).bind fun token next shorter _ hwords => ?_
    have hkind : next.kind = .closeParen := by rw [kind_eq, hwords]; rfl
    change Reads (if next.kind = .closeParen then _ else _) _ _
    rw [if_pos hkind]
    refine (reads_expect hwords).bind fun token next shorter _ hwords => ?_
    exact .pure rfl hwords
  | cons first others =>
    rw [Method.parameterListWords, List.cons_append, List.append_assoc] at h
    refine (reads_expect h).bind fun token next shorter _ hwords => ?_
    have hkind : ¬ next.kind = .closeParen := by
      rw [kind_eq, hwords, headKind_parametersWords]
      exact Kind.noConfusion
    change Reads (if next.kind = .closeParen then _ else _) _ _
    rw [if_neg hkind]
    refine (reads_parameters hwords Kind.noConfusion).bind
      fun found next shorter hfound hwords => ?_
    refine (reads_expectFor hwords _).bind fun token next shorter _ hwords => ?_
    exact .pure hfound hwords

theorem reads_method {m : Method} (hm : Stmt.AllCanonical m.body) (h : c.words = m.words ++ rest) :
    Reads c.method (fun m' => m'.bare = m.bare) rest := by
  simp only [Method.words, List.cons_append, List.append_assoc] at h
  rw [method]
  refine (reads_expect h).bind fun token next shorter _ hwords => ?_
  refine (reads_expectName hwords _).bind fun n next shorter hn hwords => ?_
  refine (reads_parameterList hwords).bind fun list next shorter hlist hwords => ?_
  refine (reads_typeMark hwords Kind.noConfusion _).bind
    fun typeName next shorter htype hwords => ?_
  refine (reads_expect hwords).bind fun token next shorter _ hwords => ?_
  refine (block_reads hm [.endWord] hwords (List.subset_cons_self ..)
    (List.mem_cons_self ..)).bind fun ss next shorter hss hwords => ?_
  refine (reads_expect hwords).bind fun token next shorter _ hwords => ?_
  refine .pure ?_ hwords
  change Method.mk n list typeName (Stmt.allBare ss) none default = _
  rw [hn, hlist, htype, hss, Method.bare]

theorem reads_methods : ∀ {ms : List Method}, (∀ m ∈ ms, Stmt.AllCanonical m.body) →
    ∀ {c : Cursor}, c.words = ms.flatMap Method.words →
      Reads c.methods (fun ms' => ms'.map Method.bare = ms.map Method.bare) []
  | [], hms, c, hc => by
    have htokens : ¬ c.hasTokens = true := by
      rw [hasTokens, kind_eq, hc]
      decide
    rw [methods, if_neg htokens]
    exact .pure rfl hc
  | m :: ms, hms, c, hc => by
    obtain ⟨hm, hms⟩ := List.forall_mem_cons.mp hms
    have hkind : c.kind = .defWord := by rw [kind_eq, hc]; rfl
    have htokens : c.hasTokens = true := by rw [hasTokens, hkind]; rfl
    rw [List.flatMap_cons] at hc
    rw [methods, if_pos htokens, hkind]
    refine (reads_method hm hc).bind fun m' next shorter hm' hwords => ?_
    refine (reads_methods hms hwords).bind fun ms' next shorter hms' hwords => ?_
    exact .pure (congrArg₂ List.cons hm' hms') hwords

theorem reads_fields : ∀ {fs : List Field}, (∀ f ∈ fs, ∀ e ∈ f.value, e.Canonical) →
    ∀ {c : Cursor} {rest : List Word}, c.words = fs.flatMap Field.words ++ rest →
      headKind rest ≠ .letWord →
      Reads c.fields (fun fs' => fs'.map Field.bare = fs.map Field.bare) rest
  | [], hfs, c, rest, hc, hrest => by
    have hkind : ¬ c.kind = .letWord := by rwa [kind_eq, hc]
    rw [fields, if_neg hkind]
    exact .pure rfl hc
  | f :: fs, hfs, c, rest, hc, hrest => by
    obtain ⟨hf, hfs⟩ := List.forall_mem_cons.mp hfs
    have hkind : c.kind = .letWord := by rw [kind_eq, hc]; rfl
    rw [List.flatMap_cons, List.append_assoc] at hc
    rw [fields, if_pos hkind]
    refine (reads_field hf hc).bind fun f' next shorter hf' hwords => ?_
    refine (reads_fields hfs hwords hrest).bind fun fs' next shorter hfs' hwords => ?_
    exact .pure (congrArg₂ List.cons hf' hfs') hwords

/-- Canonical programs are read. -/
theorem reads_program {p : Program} (hp : p.Canonical) (h : c.words = p.words) :
    Reads c.program (fun p' => p'.bare = p.bare) [] := by
  have hrest : headKind (p.methods.flatMap Method.words) ≠ .letWord := by
    cases p.methods <;> exact Kind.noConfusion
  rw [program]
  -- methods begin with a word that no field begins with, which ends the fields
  refine (reads_fields hp.fields h hrest).bind fun fs next shorter hfs hwords => ?_
  refine (reads_methods hp.methods hwords).bind fun ms next shorter hms hwords => ?_
  refine .pure ?_ hwords
  change Program.mk (fs.map Field.bare) (ms.map Method.bare) default = _
  rw [hfs, hms, Program.bare]

end Cursor

/-- A canonical program is read back from its words, up to spans and slots. -/
theorem Program.parse_words {p : Program} (hp : p.Canonical) {tokens : List Token} {close : Token}
    (htokens : tokens.map Token.word = p.words) (hclose : close.kind = .eof) (file : String) :
    ∃ read, Program.parse (tokens ++ [close]) file = .ok read ∧ read.bare = p.bare := by
  have hcursor : (Cursor.ofTokens (tokens ++ [close]) file).words = p.words := by
    rw [← htokens, Cursor.words, Cursor.ofTokens, List.getLast?_concat]
    simp only [if_pos hclose, List.dropLast_concat]
  obtain ⟨read, hread, hbare, -⟩ := Cursor.reads_program hp hcursor
  refine ⟨read.value, ?_, hbare⟩
  rw [Program.parse, hread]

end TeachLang
