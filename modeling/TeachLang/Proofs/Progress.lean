import TeachLang.Proofs.Attempts
import TeachLang.Proofs.Hulls
import TeachLang.Proofs.Viable

/-!
# Reading moves on and never passes the end

Whatever is read takes one token at least, unless it may be missing, and no reading steps over a
token that ends the text, although some may be among the tokens ahead (`Cursor.Agrees`). So an
attempt with more fuel than there are tokens before the first end is never given up, and what is
behind that end is as good as not there.

Two cursors are compared throughout: one that reads, and one that is abreast of it, with the same
tokens up to the first end, at which the attempt is made.
-/

namespace TeachLang

/-- The tokens up to the first one that ends the text, with that one. -/
def Token.untilEnd : List Token → List Token
  | [] => []
  | token :: tokens => if token.kind = .eof then [token] else token :: untilEnd tokens

namespace Token

variable {tokens rest : List Token}

/-- Nothing behind the first end counts. -/
theorem untilEnd_append (h : ∃ token ∈ tokens, token.kind = .eof) :
    untilEnd (tokens ++ rest) = untilEnd tokens := by
  induction tokens with
  | nil => simp at h
  | cons token tokens ih =>
    rw [List.cons_append, untilEnd, untilEnd]
    split
    · rfl
    · next hne => rw [ih (by simpa [hne] using h)]

/-- Without an end all tokens are in sight. -/
theorem untilEnd_of_forall_ne (h : ∀ token ∈ tokens, token.kind ≠ .eof) :
    untilEnd tokens = tokens := by
  induction tokens with
  | nil => rfl
  | cons token tokens ih =>
    rw [List.forall_mem_cons] at h
    rw [untilEnd, if_neg h.1, ih h.2]

theorem exists_end_mem_untilEnd (h : ∃ token ∈ tokens, token.kind = .eof) :
    ∃ token ∈ untilEnd tokens, token.kind = .eof := by
  induction tokens with
  | nil => simp at h
  | cons token tokens ih =>
    rw [untilEnd]
    split
    · next heof => exact ⟨token, List.mem_singleton_self token, heof⟩
    · next hne =>
      obtain ⟨last, hlast, heof⟩ := ih (by simpa [hne] using h)
      exact ⟨last, List.mem_cons_of_mem token hlast, heof⟩

/-- The end is found again where it was. -/
theorem untilEnd_untilEnd (tokens : List Token) : untilEnd (untilEnd tokens) = untilEnd tokens := by
  induction tokens with
  | nil => rfl
  | cons token tokens ih =>
    by_cases heof : token.kind = .eof
    · simp [untilEnd, heof]
    · simp [untilEnd, heof, ih]

end Token

namespace Cursor

/-- How many tokens are ahead before the first one that ends the text. -/
def room (c : Cursor) : Nat := (c.ahead.takeWhile (·.kind != .eof)).length

/-- The cursor some tokens further on. -/
def forward (c : Cursor) : Nat → Cursor
  | 0 => c
  | k + 1 => c.advance.forward k

/-- What a cursor sees: the tokens up to the first one that ends the text. -/
def sight (c : Cursor) : List Token := Token.untilEnd c.upcoming

/-- Two cursors that see the same. -/
structure Abreast (c d : Cursor) : Prop where
  /-- the token behind both ends at one place -/
  before : c.before = d.before
  /-- they see the same tokens -/
  sight : c.sight = d.sight

variable {c d next : Cursor} {k : Nat}

/-! ## Steps -/

theorem upcoming_eq_current (c : Cursor) (h : c.kind ≠ .eof) :
    c.upcoming = c.current :: c.advance.upcoming := by
  obtain ⟨before, ahead, closingValue, closingSpan⟩ := c
  cases ahead with
  | nil => exact absurd rfl h
  | cons token tokens => rfl

theorem sight_of_eof (h : c.kind = .eof) : c.sight = [c.current] := by
  obtain ⟨rest, hrest⟩ := c.upcoming_eq
  exact (congrArg Token.untilEnd hrest).trans (if_pos h)

/-- In front of any other token than the end, sight is that token and what is in sight behind it. -/
theorem sight_of_ne_eof (h : c.kind ≠ .eof) : c.sight = c.current :: c.advance.sight := by
  exact (congrArg Token.untilEnd (c.upcoming_eq_current h)).trans (if_neg h)

theorem before_advance (h : c.kind ≠ .eof) : c.advance.before = c.current.span.stop := by
  obtain ⟨before, ahead, closingValue, closingSpan⟩ := c
  cases ahead with
  | nil => exact absurd rfl h
  | cons token tokens => rfl

/-- At the end there is no room left. -/
theorem room_of_eof (h : c.kind = .eof) : c.room = 0 := by
  obtain ⟨before, ahead, closingValue, closingSpan⟩ := c
  cases ahead with
  | nil => rfl
  | cons token tokens =>
    have htoken : token.kind = .eof := h
    simp [room, htoken]

/-- A token that is not the end takes one step of the room. -/
theorem room_advance (h : c.kind ≠ .eof) : c.advance.room + 1 = c.room := by
  obtain ⟨before, ahead, closingValue, closingSpan⟩ := c
  cases ahead with
  | nil => exact absurd rfl h
  | cons token tokens =>
    have htoken : token.kind ≠ .eof := h
    simp [room, advance, htoken]

theorem ne_eof_of_room (h : 0 < c.room) : c.kind ≠ .eof := fun heof =>
  absurd (room_of_eof heof) (Nat.ne_of_gt h)

theorem forward_add (c : Cursor) (j k : Nat) : c.forward (j + k) = (c.forward j).forward k := by
  induction j generalizing c with
  | zero => rw [Nat.zero_add, forward]
  | succ j ih => rw [Nat.succ_add, forward, ih, forward]

/-- Steps within the room take as much of it. -/
theorem room_forward (h : k ≤ c.room) : (c.forward k).room + k = c.room := by
  induction k generalizing c with
  | zero => rfl
  | succ k ih =>
    have hadvance := room_advance (ne_eof_of_room (Nat.lt_of_lt_of_le (Nat.succ_pos k) h))
    have hrest : (c.advance.forward k).room + k = c.advance.room := ih (by omega)
    rw [forward]
    omega

/-- A token is taken unless it is the end, and taking it is the step forward. -/
theorem take?_advance (c : Cursor) :
    (c.take? = none ∧ c.kind = .eof) ∨
      ∃ shorter, c.take? = some ⟨c.current, c.advance, shorter⟩ := by
  obtain ⟨before, ahead, closingValue, closingSpan⟩ := c
  cases ahead with
  | nil => exact .inl ⟨rfl, rfl⟩
  | cons token tokens => exact .inr ⟨_, rfl⟩

/-! ## Cursors that see the same -/

namespace Abreast

/-- A cursor is abreast with itself. -/
theorem refl (c : Cursor) : Abreast c c := ⟨rfl, rfl⟩

variable (h : Abreast c d)

include h

/-- Cursors that are abreast see the same token, as sight is never empty. -/
theorem current : c.current = d.current := by
  have hhead (e : Cursor) : e.sight.head? = some e.current := by
    by_cases he : e.kind = .eof
    · rw [sight_of_eof he]
      rfl
    · rw [sight_of_ne_eof he]
      rfl
  exact Option.some.inj ((hhead c).symm.trans ((congrArg List.head? h.sight).trans (hhead d)))

theorem kind : c.kind = d.kind := congrArg Token.kind h.current

theorem position : c.position = d.position := congrArg (·.span.start) h.current

theorem hasTokens : c.hasTokens = d.hasTokens := by
  rw [Cursor.hasTokens, Cursor.hasTokens, h.kind]

theorem unexpected : c.unexpected = d.unexpected := by
  rw [Cursor.unexpected, Cursor.unexpected, h.current, h.position]

theorem unexpectedFor (message : String) : c.unexpectedFor message = d.unexpectedFor message := by
  rw [Cursor.unexpectedFor, Cursor.unexpectedFor, h.current, h.position]

/-- Cursors that are abreast stay so, as long as it is not the end that is passed. -/
theorem advance (hc : c.kind ≠ .eof) : Abreast c.advance d.advance := by
  have hd : d.kind ≠ .eof := h.kind ▸ hc
  refine ⟨?_, ?_⟩
  · rw [before_advance hc, before_advance hd, h.current]
  · have hsight := h.sight
    rw [sight_of_ne_eof hc, sight_of_ne_eof hd] at hsight
    exact (List.cons.inj hsight).2

/-- They stay so for as many steps as there is room. -/
theorem forward (hk : k ≤ c.room) : Abreast (c.forward k) (d.forward k) := by
  induction k generalizing c d with
  | zero => exact h
  | succ k ih =>
    have hc : c.kind ≠ .eof := ne_eof_of_room (Nat.lt_of_lt_of_le (Nat.succ_pos k) hk)
    have hroom := room_advance hc
    exact ih (h.advance hc) (by omega)

end Abreast

/-! ## Readings and attempts at them -/

/-- What reading comes to, and where. -/
def ended {α : Type} {n : Nat} : Except Failure (Read n α) → Except Diagnostic α × Cursor
  | .ok read => (.ok read.value, read.next)
  | .error failure => (.error failure.diagnostic, failure.stopped)

/-- The attempt at one cursor comes to what reading comes to at the other. Both move as many tokens
further on, past no end of the text, and if something was read then not less than the given number
of tokens. -/
def Agrees {α : Type} {n : Nat} (least : Nat) (c d : Cursor) (attempt : Attempt α)
    (result : Except Failure (Read n α)) : Prop :=
  ∃ outcome k, attempt d = some (outcome, d.forward k) ∧ ended result = (outcome, c.forward k) ∧
    k ≤ c.room ∧ (outcome.isOk = true → least ≤ k)

variable {α β : Type} {n m least taken : Nat}

/-- If an attempt agrees and goes on to agree then it agrees. -/
theorem Agrees.bind {first : Attempt α} {result : Except Failure (Read n α)}
    {andThen : α → Attempt β} {more : Read n α → Except Failure (Read m β)} (habreast : Abreast c d)
    (h : Agrees taken c d first result)
    (hnext : ∀ value next shorter e, Abreast next e → next.room + taken ≤ c.room →
      Agrees (least - taken) next e (andThen value) (more ⟨value, next, shorter⟩)) :
    Agrees least c d (first >>= andThen) (result >>= more) := by
  obtain ⟨outcome, k, hattempt, hended, hroom, htaken⟩ := h
  cases result with
  | error failure =>
    obtain ⟨rfl, hstopped⟩ := Prod.mk.inj hended
    refine ⟨.error failure.diagnostic, k, ?_, congrArg (Prod.mk _) hstopped, hroom, nofun⟩
    change Attempt.bind first andThen d = _
    rw [Attempt.bind, hattempt]
  | ok read =>
    obtain ⟨value, next, shorter⟩ := read
    obtain ⟨rfl, rfl⟩ := Prod.mk.inj hended
    have hpast := room_forward hroom
    have hleast := htaken rfl
    obtain ⟨outcome, j, hattempt', hended', hroom', htaken'⟩ :=
      hnext value _ shorter _ (habreast.forward hroom) (by omega)
    refine ⟨outcome, k + j, ?_, ?_, by omega, fun hok => ?_⟩
    · change Attempt.bind first andThen d = _
      rw [Attempt.bind, hattempt, forward_add]
      exact hattempt'
    · rw [forward_add]
      exact hended'
    · have := htaken' hok
      omega

/-- What is already known takes no token. -/
theorem Agrees.pure {value : α} {shorter : c.remaining < n} :
    Agrees 0 c d (Pure.pure value) (Pure.pure ⟨value, c, shorter⟩ : Except Failure (Read n α)) :=
  ⟨.ok value, 0, rfl, rfl, Nat.zero_le _, fun _ => Nat.le_refl 0⟩

/-- A failure may be anywhere in the room: it is not said how many tokens were taken. -/
theorem Agrees.fail {fault : Cursor → Diagnostic} {diagnostic : Diagnostic}
    (h : diagnostic = fault d) :
    Agrees least c d (Attempt.fail fault) (c.fail diagnostic : Except Failure (Read n α)) :=
  ⟨.error diagnostic, 0, h ▸ rfl, rfl, Nat.zero_le _, nofun⟩

/-- An attempt and a reader that test the same go the same way. -/
theorem Agrees.ite {p : Prop} [Decidable p] {a b : Attempt α} {a' b' : Except Failure (Read n α)}
    (hthen : p → Agrees least c d a a') (helse : ¬ p → Agrees least c d b b') :
    Agrees least c d (if p then a else b) (if p then a' else b') := by
  split
  · next hp => exact hthen hp
  · next hp => exact helse hp

/-- To look at the cursor is no step. -/
theorem Agrees.look {γ : Type} {f : Cursor → γ} {andThen : γ → Attempt α}
    {result : Except Failure (Read n α)} (hf : f c = f d)
    (h : Agrees least c d (andThen (f c)) result) :
    Agrees least c d (Attempt.look f >>= andThen) result := by
  obtain ⟨outcome, k, hattempt, hrest⟩ := h
  refine ⟨outcome, k, ?_, hrest⟩
  rw [hf] at hattempt
  exact hattempt

/-- Reading that goes on from behind the token in front of the cursor. -/
theorem Agrees.advance {andThen : Token → Attempt α} {result : Except Failure (Read n α)}
    (habreast : Abreast c d) (hc : c.kind ≠ .eof)
    (h : Abreast c.advance d.advance → c.advance.room + 1 = c.room →
      Agrees (least - 1) c.advance d.advance (andThen c.current) result) :
    Agrees least c d (Attempt.advance >>= andThen) result := by
  have hroom := room_advance hc
  obtain ⟨outcome, k, hattempt, hended, hk, hleast⟩ := h (habreast.advance hc) hroom
  refine ⟨outcome, k + 1, ?_, hended, by omega, fun hok => ?_⟩
  · rw [habreast.current] at hattempt
    exact hattempt
  · have := hleast hok
    omega

/-- What was read is the same when it is said how it is shorter than something else. -/
theorem Agrees.repack {attempt : Attempt α} {result : Except Failure (Read n α)}
    {pack : Read n α → Except Failure (Read m α)} (h : Agrees least c d attempt result)
    (hpack : ∀ value next shorter, ∃ shorter', pack ⟨value, next, shorter⟩ =
      Pure.pure ⟨value, next, shorter'⟩) :
    Agrees least c d attempt (result >>= pack) := by
  obtain ⟨outcome, k, hattempt, hended, hrest⟩ := h
  refine ⟨outcome, k, hattempt, ?_, hrest⟩
  cases result with
  | error failure => exact hended
  | ok read =>
    obtain ⟨shorter, hread⟩ := hpack read.value read.next read.shorter
    change ended (pack read) = _
    rw [hread]
    exact hended

section Tokens

variable {kind : Kind} (h : Abreast c d)

include h

/-- A word is one token further, and it is not the end that is asked for. -/
theorem expectOr_agrees (fault : Cursor → Diagnostic) (hkind : kind ≠ .eof)
    (hfault : fault c = fault d) :
    Agrees 1 c d (Attempt.expectOr kind fault) (c.expectOr kind (fault c)) := by
  rw [expectOr]
  refine .look h.kind ?_
  rcases c.take?_advance with ⟨htake, heof⟩ | ⟨shorter, htake⟩
  · rw [htake, if_neg (heof ▸ hkind.symm)]
    exact .fail hfault
  · rw [htake]
    refine .ite (fun hc => ?_) fun _ => .fail hfault
    have hc' : c.kind ≠ .eof := hc ▸ hkind
    refine ⟨.ok c.current, 1, ?_, rfl, ?_, fun _ => Nat.le_refl 1⟩
    · rw [h.current]
      rfl
    · have := room_advance hc'
      omega

theorem expect_agrees (hkind : kind ≠ .eof) :
    Agrees 1 c d (Attempt.expect kind) (c.expect kind) :=
  expectOr_agrees h Cursor.unexpected hkind h.unexpected

theorem expectFor_agrees (hkind : kind ≠ .eof) (message : String) :
    Agrees 1 c d (Attempt.expectFor kind message) (c.expectFor kind message) :=
  expectOr_agrees h (·.unexpectedFor message) hkind (h.unexpectedFor message)

theorem expectName_agrees (message : String) :
    Agrees 1 c d (Attempt.expectName message) (c.expectName message) := by
  refine .bind h (expectFor_agrees h (by decide) message) fun _ _ _ _ _ _ => ?_
  exact .pure

end Tokens

/-! ## Expressions -/

/-- A literal is one token, unless it is out of range. -/
theorem literal_agrees (h : Abreast c d) (hc : c.kind ≠ .eof) :
    Agrees 1 c d Attempt.literal c.literal := by
  rw [literal]
  refine .advance h hc fun _ _ => ?_
  rcases c.take?_advance with ⟨_, heof⟩ | ⟨shorter, htake⟩
  · exact absurd heof hc
  · rw [htake]
    simp only
    cases c.current.literal with
    | ok value => exact .pure
    | error diagnostic => exact .fail rfl

section Inner

variable {expr : Power → Attempt Expr} {fuel rounds : Nat}
  (hexpr : ∀ c d power, Abreast c d → c.room < fuel → Agrees 1 c d (expr power) (c.expr power))

include hexpr

/-- Every further argument takes at least its comma, so rounds for the room are enough. -/
theorem moreArguments_agrees (h : Abreast c d) (hfuel : c.room < fuel) (hrounds : c.room < rounds) :
    Agrees 0 c d (Attempt.moreArguments expr rounds) c.moreArguments := by
  induction rounds generalizing c d with
  | zero => exact absurd hrounds (Nat.not_lt_zero _)
  | succ rounds ih =>
    rw [moreArguments, Attempt.moreArguments]
    refine .look h.kind (.ite (fun _ => ?_) fun _ => .pure)
    refine .bind h (expect_agrees h (by decide)) fun _ mid _ _ h _ => ?_
    refine .bind h (hexpr mid _ .default h (by omega)) fun _ _ _ _ h _ => ?_
    refine .bind h (ih h (by omega) (by omega)) fun _ _ _ _ _ _ => ?_
    exact .pure

theorem arguments_agrees (h : Abreast c d) (hfuel : c.room < fuel) (hrounds : c.room < rounds) :
    Agrees 1 c d (Attempt.arguments expr rounds) c.arguments := by
  rw [arguments, Attempt.arguments]
  refine .bind h (expect_agrees h (by decide)) fun _ mid _ _ h _ => ?_
  refine .look h.kind (.ite (fun _ => ?_) fun _ => ?_)
  · refine .bind h (expect_agrees h (by decide)) fun _ _ _ _ _ _ => ?_
    exact .pure
  · refine .bind h (hexpr mid _ .default h (by omega)) fun _ _ _ _ h _ => ?_
    refine .bind h (moreArguments_agrees hexpr h (by omega) (by omega)) fun _ _ _ _ h _ => ?_
    refine .bind h (expectFor_agrees h (by decide) _) fun _ _ _ _ _ _ => ?_
    exact .pure

/-- An operand in parentheses comes behind a token, so the fuel of the expression in it may be one
less than that of the whole. -/
theorem operand_agrees (h : Abreast c d) (hfuel : c.room ≤ fuel) (hrounds : c.room ≤ rounds) :
    Agrees 1 c d (Attempt.operand expr rounds) c.operand := by
  rw [operand, Attempt.operand]
  refine .look h.kind ?_
  rcases c.take?_advance with ⟨htake, heof⟩ | ⟨shorter, htake⟩
  · rw [htake, heof]
    exact .fail (h.unexpectedFor _)
  · rw [htake, show c.kind = c.current.kind from rfl]
    simp only
    generalize hkind : c.current.kind = kind
    cases kind with
    | identifier =>
      refine .advance h (hkind.trans_ne (by decide)) fun h _ => ?_
      refine .look h.kind (.ite (fun _ => ?_) fun _ => .pure)
      refine .bind h (arguments_agrees hexpr h (by omega) (by omega)) fun _ _ _ _ h _ => ?_
      exact .look h.before .pure
    | openParen =>
      refine .advance h (hkind.trans_ne (by decide)) fun h _ => ?_
      refine .bind h (hexpr _ _ .default h (by omega)) fun _ _ _ _ h _ => ?_
      refine .bind h (expectFor_agrees h (by decide) _) fun _ _ _ _ h _ => ?_
      exact .look h.before .pure
    | _ =>
      refine .ite (fun hstarts => ?_) fun _ => .fail (h.unexpectedFor _)
      refine literal_agrees h fun heof => ?_
      rw [← hkind, show c.current.kind = _ from heof] at hstarts
      cases hstarts

theorem member_agrees (receiver : Expr) (h : Abreast c d) (hc : c.kind ≠ .eof)
    (hfuel : c.room ≤ fuel) (hrounds : c.room ≤ rounds) :
    Agrees 1 c d (Attempt.member expr rounds receiver) (c.member receiver) := by
  rw [member]
  refine .advance h hc fun h _ => ?_
  rcases c.take?_advance with ⟨_, heof⟩ | ⟨shorter, htake⟩
  · exact absurd heof hc
  · rw [htake]
    refine .bind h (expectFor_agrees h (by decide) _) fun _ _ _ _ h _ => ?_
    refine .look h.kind (.ite (fun _ => ?_) fun _ => .pure)
    refine .bind h (arguments_agrees hexpr h (by omega) (by omega)) fun _ _ _ _ h _ => ?_
    exact .look h.before .pure

theorem binary_agrees (power : Power) (left : Expr) (h : Abreast c d) (hc : c.kind ≠ .eof)
    (hfuel : c.room ≤ fuel) :
    Agrees 1 c d (Attempt.binary expr power left) (c.binary power left) := by
  rw [binary]
  refine .advance h hc fun h _ => ?_
  rcases c.take?_advance with ⟨_, heof⟩ | ⟨shorter, htake⟩
  · exact absurd heof hc
  · rw [htake]
    simp only
    cases Operator.ofKind? c.current.kind with
    | none => exact .fail rfl
    | some operator =>
      refine .bind h (hexpr _ _ power h (by omega)) fun _ _ _ _ _ _ => ?_
      exact .pure

/-- Every operator and every dot is a token, so rounds for the room are enough. -/
theorem operators_agrees (power : Power) (left : Expr) (h : Abreast c d) (hfuel : c.room ≤ fuel)
    (hrounds : c.room < rounds) :
    Agrees 0 c d (Attempt.operators expr power rounds left) (c.operators power left) := by
  induction rounds generalizing c d left with
  | zero => exact absurd hrounds (Nat.not_lt_zero _)
  | succ rounds ih =>
    rw [operators, Attempt.operators]
    refine .look h.kind (.ite (fun hpower => ?_) fun _ => .pure)
    have hc : c.kind ≠ .eof := fun heof => by
      rw [heof] at hpower
      exact Nat.not_lt_zero _ hpower
    refine .ite (fun _ => ?_) fun _ => .ite (fun _ => ?_) fun _ => .fail h.unexpected
    · refine .bind h (member_agrees hexpr left h hc hfuel (by omega)) fun _ _ _ _ h _ => ?_
      exact .repack (ih _ h (by omega) (by omega)) fun _ _ _ => ⟨_, rfl⟩
    · refine .bind h (binary_agrees hexpr _ left h hc hfuel) fun _ _ _ _ h _ => ?_
      exact .repack (ih _ h (by omega) (by omega)) fun _ _ _ => ⟨_, rfl⟩

end Inner

/-- An expression takes a token for its operand at least. The induction is on the fuel, which is
never used up while it is above the room. -/
theorem expr_agrees {fuel : Nat} (power : Power) (h : Abreast c d) (hfuel : c.room < fuel) :
    Agrees 1 c d (Attempt.expr fuel power) (c.expr power) := by
  induction fuel generalizing c d power with
  | zero => exact absurd hfuel (Nat.not_lt_zero _)
  | succ fuel ih =>
    have hexpr : ∀ c d power, Abreast c d → c.room < fuel →
        Agrees 1 c d (Attempt.expr fuel power) (c.expr power) := fun _ _ power h => ih power h
    have hc : c.room ≤ fuel := Nat.le_of_lt_succ hfuel
    rw [expr, Attempt.expr]
    refine .bind h (operand_agrees hexpr h hc hc) fun _ _ _ _ h _ => ?_
    exact .repack (operators_agrees hexpr power _ h (by omega) (by omega)) fun _ _ _ => ⟨_, rfl⟩

/-! ## Statements -/

section Statements

variable {fuel rounds : Nat}

theorem typeMark_agrees (message : String) (h : Abreast c d) :
    Agrees 0 c d (Attempt.typeMark message) (c.typeMark message) := by
  rw [typeMark]
  refine .look h.kind (.ite (fun _ => ?_) fun _ => .pure)
  refine .bind h (expect_agrees h (by decide)) fun _ _ _ _ h _ => ?_
  refine .bind h (expectName_agrees h _) fun _ _ _ _ _ _ => ?_
  exact .pure

/-- A first value may be left out, and then no token is taken. -/
theorem firstValue_agrees (h : Abreast c d) (hfuel : c.room < fuel) :
    Agrees 0 c d (Attempt.firstValue fuel) c.firstValue := by
  rw [firstValue]
  refine .look h.kind (.ite (fun _ => ?_) fun _ => .pure)
  refine .bind h (expect_agrees h (by decide)) fun _ _ _ _ h _ => ?_
  refine .bind h (expr_agrees .default h (by omega)) fun _ _ _ _ _ _ => ?_
  exact .pure

theorem declaration_agrees (h : Abreast c d) (hfuel : c.room < fuel) :
    Agrees 1 c d (Attempt.declaration fuel) c.declaration := by
  rw [declaration]
  refine .bind h (expect_agrees h (by decide)) fun _ _ _ _ h _ => ?_
  refine .bind h (expectName_agrees h _) fun _ _ _ _ h _ => ?_
  refine .bind h (typeMark_agrees _ h) fun _ _ _ _ h _ => ?_
  refine .bind h (firstValue_agrees h (by omega)) fun _ _ _ _ h _ => ?_
  refine .bind h (expect_agrees h (by decide)) fun _ _ _ _ h _ => ?_
  exact .look h.before .pure

theorem returns_agrees (h : Abreast c d) (hfuel : c.room < fuel) :
    Agrees 1 c d (Attempt.returns fuel) c.returns := by
  rw [returns]
  refine .bind h (expect_agrees h (by decide)) fun _ _ _ _ h _ => ?_
  refine .bind h (expr_agrees .default h (by omega)) fun _ _ _ _ h _ => ?_
  refine .bind h (expect_agrees h (by decide)) fun _ _ _ _ h _ => ?_
  exact .look h.before .pure

/-- Whether there is an assignment is seen behind the expression, by both. -/
theorem expressionOrAssignment_agrees (h : Abreast c d) (hfuel : c.room < fuel) :
    Agrees 1 c d (Attempt.expressionOrAssignment fuel) c.expressionOrAssignment := by
  rw [expressionOrAssignment]
  refine .look h.position ?_
  refine .bind h (expr_agrees .default h hfuel) fun _ _ _ _ h _ => ?_
  refine .bind h (firstValue_agrees h (by omega)) fun value _ _ _ h _ => ?_
  refine .bind h (expect_agrees h (by decide)) fun _ _ _ _ h _ => ?_
  refine .look h.before ?_
  cases value with
  | some value => exact .pure
  | none => exact .pure

section Inner

variable {stmt : Attempt Stmt}
  (hstmt : ∀ c d, Abreast c d → c.room < fuel → Agrees 1 c d stmt c.stmt)

include hstmt

/-- Every statement takes a token, so rounds for the room are enough; an empty block takes none. -/
theorem block_agrees (closers : List Kind) (h : Abreast c d) (hfuel : c.room < fuel)
    (hrounds : c.room < rounds) :
    Agrees 0 c d (Attempt.block stmt closers rounds) (c.block closers) := by
  induction rounds generalizing c d with
  | zero => exact absurd hrounds (Nat.not_lt_zero _)
  | succ rounds ih =>
    rw [block, Attempt.block]
    refine .look h.kind (.ite (fun _ => .pure) fun _ => ?_)
    refine .look h.hasTokens (.ite (fun _ => ?_) fun _ => .fail (h.unexpectedFor _))
    refine .bind h (hstmt c d h hfuel) fun _ _ _ _ h _ => ?_
    refine .bind h (ih h (by omega) (by omega)) fun _ _ _ _ _ _ => ?_
    exact .pure

theorem elseBlock_agrees (h : Abreast c d) (hfuel : c.room < fuel) (hrounds : c.room < rounds) :
    Agrees 0 c d (Attempt.elseBlock rounds stmt) c.elseBlock := by
  rw [elseBlock]
  refine .look h.kind (.ite (fun _ => ?_) fun _ => .pure)
  refine .bind h (expect_agrees h (by decide)) fun _ _ _ _ h _ => ?_
  exact .repack (block_agrees hstmt _ h (by omega) (by omega)) fun _ _ _ => ⟨_, rfl⟩

/-- `IF` is a token, so that blocks may be read with the fuel of the statement around them less one.
-/
theorem conditional_agrees (h : Abreast c d) (hfuel : c.room ≤ fuel) (hrounds : c.room ≤ rounds) :
    Agrees 1 c d (Attempt.conditional rounds stmt) c.conditional := by
  rw [conditional]
  refine .bind h (expect_agrees h (by decide)) fun _ _ _ _ h _ => ?_
  refine .bind h (expr_agrees .default h (by omega)) fun _ _ _ _ h _ => ?_
  refine .bind h (expect_agrees h (by decide)) fun _ _ _ _ h _ => ?_
  refine .bind h (block_agrees hstmt _ h (by omega) (by omega)) fun _ _ _ _ h _ => ?_
  refine .bind h (elseBlock_agrees hstmt h (by omega) (by omega)) fun _ _ _ _ h _ => ?_
  refine .bind h (expect_agrees h (by decide)) fun _ _ _ _ h _ => ?_
  exact .look h.before .pure

theorem forEach_agrees (h : Abreast c d) (hfuel : c.room ≤ fuel) (hrounds : c.room ≤ rounds) :
    Agrees 1 c d (Attempt.forEach rounds stmt) c.forEach := by
  rw [forEach]
  refine .bind h (expect_agrees h (by decide)) fun _ _ _ _ h _ => ?_
  refine .bind h (expectName_agrees h _) fun _ _ _ _ h _ => ?_
  refine .bind h (expect_agrees h (by decide)) fun _ _ _ _ h _ => ?_
  refine .bind h (expr_agrees .default h (by omega)) fun _ _ _ _ h _ => ?_
  refine .bind h (expect_agrees h (by decide)) fun _ _ _ _ h _ => ?_
  refine .bind h (block_agrees hstmt _ h (by omega) (by omega)) fun _ _ _ _ h _ => ?_
  refine .bind h (expect_agrees h (by decide)) fun _ _ _ _ h _ => ?_
  exact .look h.before .pure

theorem whileLoop_agrees (h : Abreast c d) (hfuel : c.room ≤ fuel) (hrounds : c.room ≤ rounds) :
    Agrees 1 c d (Attempt.whileLoop rounds stmt) c.whileLoop := by
  rw [whileLoop]
  refine .bind h (expect_agrees h (by decide)) fun _ _ _ _ h _ => ?_
  refine .bind h (expr_agrees .default h (by omega)) fun _ _ _ _ h _ => ?_
  refine .bind h (expect_agrees h (by decide)) fun _ _ _ _ h _ => ?_
  refine .bind h (block_agrees hstmt _ h (by omega) (by omega)) fun _ _ _ _ h _ => ?_
  refine .bind h (expect_agrees h (by decide)) fun _ _ _ _ h _ => ?_
  exact .look h.before .pure

end Inner

/-- Statements take a token at least. The induction is on the fuel, as for expressions, with the
blocks of a statement behind its first word. -/
theorem stmt_agrees (h : Abreast c d) (hfuel : c.room < fuel) :
    Agrees 1 c d (Attempt.stmt fuel) c.stmt := by
  induction fuel generalizing c d with
  | zero => exact absurd hfuel (Nat.not_lt_zero _)
  | succ fuel ih =>
    have hstmt : ∀ c d, Abreast c d → c.room < fuel → Agrees 1 c d (Attempt.stmt fuel) c.stmt :=
      fun _ _ h => ih h
    have hc : c.room ≤ fuel := Nat.le_of_lt_succ hfuel
    rw [stmt, Attempt.stmt]
    refine .look h.kind ?_
    cases c.kind with
    | letWord => exact declaration_agrees h hfuel
    | ifWord => exact conditional_agrees hstmt h hc (by omega)
    | forWord => exact forEach_agrees hstmt h hc (by omega)
    | whileWord => exact whileLoop_agrees hstmt h hc (by omega)
    | returnWord => exact returns_agrees h hfuel
    | _ => exact expressionOrAssignment_agrees h hfuel

/-! ## Programs -/

theorem field_agrees (h : Abreast c d) (hfuel : c.room < fuel) :
    Agrees 1 c d (Attempt.field fuel) c.field := by
  rw [field]
  refine .bind h (expect_agrees h (by decide)) fun _ _ _ _ h _ => ?_
  refine .bind h (expectName_agrees h _) fun _ _ _ _ h _ => ?_
  refine .bind h (expectFor_agrees h (by decide) _) fun _ _ _ _ h _ => ?_
  refine .bind h (expectName_agrees h _) fun _ _ _ _ h _ => ?_
  refine .bind h (firstValue_agrees h (by omega)) fun _ _ _ _ h _ => ?_
  refine .bind h (expect_agrees h (by decide)) fun _ _ _ _ h _ => ?_
  exact .look h.before .pure

/-- Every parameter takes a token, so rounds for the room are enough. -/
theorem parameters_agrees (h : Abreast c d) (hrounds : c.room < rounds) :
    Agrees 1 c d (Attempt.parameters rounds) c.parameters := by
  induction rounds generalizing c d with
  | zero => exact absurd hrounds (Nat.not_lt_zero _)
  | succ rounds ih =>
    rw [parameters, Attempt.parameters]
    refine .bind h (expectName_agrees h _) fun _ _ _ _ h _ => ?_
    refine .bind h (expect_agrees h (by decide)) fun _ _ _ _ h _ => ?_
    refine .bind h (expectName_agrees h _) fun _ _ _ _ h _ => ?_
    refine .look h.kind (.ite (fun _ => ?_) fun _ => .pure)
    refine .bind h (expect_agrees h (by decide)) fun _ _ _ _ h _ => ?_
    refine .bind h (ih h (by omega)) fun _ _ _ _ _ _ => ?_
    exact .pure

theorem parameterList_agrees (h : Abreast c d) (hfuel : c.room < fuel) :
    Agrees 1 c d (Attempt.parameterList fuel) c.parameterList := by
  rw [parameterList]
  refine .bind h (expect_agrees h (by decide)) fun _ _ _ _ h _ => ?_
  refine .look h.kind (.ite (fun _ => ?_) fun _ => ?_)
  · refine .bind h (expect_agrees h (by decide)) fun _ _ _ _ _ _ => ?_
    exact .pure
  · refine .bind h (parameters_agrees h (by omega)) fun _ _ _ _ h _ => ?_
    refine .bind h (expectFor_agrees h (by decide) _) fun _ _ _ _ _ _ => ?_
    exact .pure

/-- A method takes a token, its `DEF`. -/
theorem method_agrees (h : Abreast c d) (hfuel : c.room < fuel) :
    Agrees 1 c d (Attempt.method fuel) c.method := by
  have hstmt : ∀ c d, Abreast c d → c.room < fuel → Agrees 1 c d (Attempt.stmt fuel) c.stmt :=
    fun _ _ => stmt_agrees
  rw [method]
  refine .bind h (expect_agrees h (by decide)) fun _ _ _ _ h _ => ?_
  refine .bind h (expectName_agrees h _) fun _ _ _ _ h _ => ?_
  refine .bind h (parameterList_agrees h (by omega)) fun _ _ _ _ h _ => ?_
  refine .bind h (typeMark_agrees _ h) fun _ _ _ _ h _ => ?_
  refine .bind h (expect_agrees h (by decide)) fun _ _ _ _ h _ => ?_
  refine .bind h (block_agrees hstmt _ h (by omega) (by omega)) fun _ _ _ _ h _ => ?_
  refine .bind h (expect_agrees h (by decide)) fun _ _ _ _ h _ => ?_
  exact .look h.before .pure

theorem methods_agrees (h : Abreast c d) (hfuel : c.room < fuel) (hrounds : c.room < rounds) :
    Agrees 0 c d (Attempt.methods fuel rounds) c.methods := by
  induction rounds generalizing c d with
  | zero => exact absurd hrounds (Nat.not_lt_zero _)
  | succ rounds ih =>
    rw [methods, Attempt.methods]
    refine .look h.hasTokens (.ite (fun _ => .look h.kind ?_) fun _ => .pure)
    cases c.kind with
    | defWord =>
      refine .bind h (method_agrees h hfuel) fun _ _ _ _ h _ => ?_
      refine .bind h (ih h (by omega) (by omega)) fun _ _ _ _ _ _ => ?_
      exact .pure
    | _ => exact .fail (h.unexpectedFor _)

theorem fields_agrees (h : Abreast c d) (hfuel : c.room < fuel) (hrounds : c.room < rounds) :
    Agrees 0 c d (Attempt.fields fuel rounds) c.fields := by
  induction rounds generalizing c d with
  | zero => exact absurd hrounds (Nat.not_lt_zero _)
  | succ rounds ih =>
    rw [fields, Attempt.fields]
    refine .look h.kind (.ite (fun _ => ?_) fun _ => .pure)
    refine .bind h (field_agrees h hfuel) fun _ _ _ _ h _ => ?_
    refine .bind h (ih h (by omega) (by omega)) fun _ _ _ _ _ _ => ?_
    exact .pure

/-- Fields and then methods, until neither starts; there may be none of both. -/
theorem program_agrees (h : Abreast c d) (hfuel : c.room < fuel) :
    Agrees 0 c d (Attempt.program fuel) c.program := by
  rw [program]
  refine .look h.before ?_
  refine .bind h (fields_agrees h hfuel hfuel) fun _ _ _ _ h _ => ?_
  refine .bind h (methods_agrees h (by omega) (by omega)) fun _ _ _ _ h _ => ?_
  exact .look h.before .pure

end Statements

/-! ## Whole texts -/

/-- What a cursor sees that was made from tokens of which one ends the text. -/
theorem sight_ofTokens {tokens : List Token} (file : String)
    (h : ∃ token ∈ tokens, token.kind = .eof) :
    (ofTokens tokens file).sight = Token.untilEnd tokens := by
  obtain ⟨rest, hrest⟩ := isPrefix_upcoming tokens file
  rw [sight, ← hrest, Token.untilEnd_append h]

/-- It makes no difference what stands behind the first end. -/
theorem abreast_ofTokens_untilEnd (tokens : List Token) (file : String) :
    Abreast (ofTokens tokens file) (ofTokens (Token.untilEnd tokens) file) := by
  by_cases h : ∃ token ∈ tokens, token.kind = .eof
  · refine ⟨by rw [before_ofTokens, before_ofTokens], ?_⟩
    rw [sight_ofTokens file h, sight_ofTokens file (Token.exists_end_mem_untilEnd h),
      Token.untilEnd_untilEnd]
  · have hne : ∀ token ∈ tokens, token.kind ≠ .eof := fun token htoken heof =>
      h ⟨token, htoken, heof⟩
    rw [Token.untilEnd_of_forall_ne hne]
    exact .refl _

/-- Reading that gets no further than to the first token that ends the text, and takes one token at
least if something is read. -/
def MovesOn {α : Type} {n : Nat} (c : Cursor) (result : Except Failure (Read n α)) : Prop :=
  ∃ k, (ended result).2 = c.forward k ∧ k ≤ c.room ∧ ((ended result).1.isOk = true → 0 < k)

/-- Whatever agrees with an attempt that takes a token gets further in its sight. -/
theorem Agrees.movesOn {attempt : Attempt α} {result : Except Failure (Read n α)}
    (h : Agrees 1 c d attempt result) : c.MovesOn result := by
  obtain ⟨outcome, k, -, hended, hroom, hleast⟩ := h
  refine ⟨k, congrArg Prod.snd hended, hroom, fun hok => hleast ?_⟩
  rw [hended] at hok
  exact hok

end Cursor

namespace Program

theorem parse_eq_ended (tokens : List Token) (file : String) :
    parse tokens file = (Cursor.ended (Cursor.ofTokens tokens file).program).1 := by
  rw [parse]
  cases (Cursor.ofTokens tokens file).program <;> rfl

/-- What is behind the first end of the text makes no difference to the program. -/
theorem parse_untilEnd (tokens : List Token) (file : String) :
    parse (Token.untilEnd tokens) file = parse tokens file := by
  -- enough fuel for both texts, so that one attempt at the shorter text agrees with both readings
  let fuel := (Cursor.ofTokens tokens file).room +
    (Cursor.ofTokens (Token.untilEnd tokens) file).room
  have hlong : (Cursor.ofTokens tokens file).room < fuel + 1 := by omega
  have hshort : (Cursor.ofTokens (Token.untilEnd tokens) file).room < fuel + 1 := by omega
  obtain ⟨outcome, k, hattempt, hended, -⟩ :=
    Cursor.program_agrees (Cursor.abreast_ofTokens_untilEnd tokens file) hlong
  obtain ⟨outcome', k', hattempt', hended', -⟩ :=
    Cursor.program_agrees (Cursor.Abreast.refl _) hshort
  have hsame := Option.some.inj (hattempt'.symm.trans hattempt)
  rw [parse_eq_ended, parse_eq_ended, hended, hended']
  exact (Prod.mk.inj hsame).1

/-- From any cursor, whatever is read as an expression, a statement, a field or a method takes a
token, and nothing is read past the first token that ends the text, nor is it when reading fails.
So reading a program comes to an end on all tokens: an attempt with more fuel than there are tokens
before that end is not given up, stops no further on, and comes to the same; and what is behind that
end makes no difference. -/
theorem parse_progresses (tokens : List Token) (file : String) :
    (∀ c : Cursor, (∀ power, c.MovesOn (c.expr power)) ∧ c.MovesOn c.stmt ∧ c.MovesOn c.field ∧
      c.MovesOn c.method) ∧
    (∀ spare, ∃ k ≤ (tokens.takeWhile (·.kind != .eof)).length,
      Attempt.program ((tokens.takeWhile (·.kind != .eof)).length + 1 + spare)
          (Cursor.ofTokens tokens file) =
        some (parse tokens file, (Cursor.ofTokens tokens file).forward k)) ∧
    parse (Token.untilEnd tokens) file = parse tokens file := by
  refine ⟨fun c => ?_, fun spare => ?_, parse_untilEnd tokens file⟩
  · have habreast := Cursor.Abreast.refl c
    have hfuel : c.room < c.room + 1 := Nat.lt_succ_self c.room
    exact ⟨fun power => (Cursor.expr_agrees power habreast hfuel).movesOn,
      (Cursor.stmt_agrees habreast hfuel).movesOn, (Cursor.field_agrees habreast hfuel).movesOn,
      (Cursor.method_agrees habreast hfuel).movesOn⟩
  · have hroom : (Cursor.ofTokens tokens file).room = (tokens.takeWhile (·.kind != .eof)).length :=
      congrArg List.length (Cursor.takeWhile_ofTokens tokens file)
    have hfuel : (Cursor.ofTokens tokens file).room <
        (Cursor.ofTokens tokens file).room + 1 + spare := by omega
    obtain ⟨outcome, k, hattempt, hended, hk, -⟩ :=
      Cursor.program_agrees (Cursor.Abreast.refl _) hfuel
    rw [← hroom, parse_eq_ended, hended]
    exact ⟨k, hk, hattempt⟩

end Program

end TeachLang
