import TeachLang.Proofs.Predictive

/-!
# What is expected can be supplied

For each part of a program there are some tokens that make it up, none for a part that can be left
out. So for a whole stack of what is still expected there are tokens that the recognizer gets
through with (`Formed.completes`), if every part is expected where it can be: what can go on is
followed by something that closes it. Stacks are of that form all the way from the start
(`Reaches.formed`).
-/

namespace TeachLang

namespace Predictive

variable {s t : State} {item : Item} {stack : List Item} {rest : List Token} {token : Token}
  {kind : Kind} {message : Option String} {p : Part} {items : List Item}

/-! ## Places of parts -/

/-- Whether a token of a kind ends every expression, name of a type or value before it. -/
def closes (kind : Kind) : Prop :=
  kind = .semicolon ∨ kind = .closeParen ∨ kind = .doWord ∨ kind = .endWord

/-- The kinds of some tokens that a part can consist of. -/
def Part.completion : Part → List Kind
  | expression _ => [.identifier]
  | statement => [.identifier, .semicolon]
  | firstArgument | moreArguments | firstParameter | moreParameters => [.closeParen]
  | body | branches => [.endWord]
  | afterName _ | operators _ | typeMark _ | firstValue | fields | methods => []

/-- The kinds of some tokens that can stand for what is expected. -/
def Item.completion : Item → List Kind
  | .token kind _ => [kind]
  | .part p => p.completion

/-- The kinds of some tokens that can stand for all that is expected. -/
def completion (stack : List Item) : List Kind := stack.flatMap Item.completion

/-- Whether a part is expected in a place where it can be. What can go on has to be closed by what
is expected behind it, and the fields and methods of a program are the last of it. -/
def Part.Fits (stack : List Item) : Part → Prop
  | expression _ | afterName _ | operators _ | typeMark _ | firstValue =>
    ∃ kind, (Predictive.completion stack).head? = some kind ∧ closes kind
  | fields | methods => stack = []
  | _ => True

/-- Stacks on which every part is expected in a place where it can be. -/
def Formed : List Item → Prop
  | [] => True
  | .token kind _ :: stack => kind ≠ .eof ∧ Formed stack
  | .part p :: stack => p.Fits stack ∧ Formed stack

@[simp]
theorem completion_cons (item : Item) (stack : List Item) :
    completion (item :: stack) = item.completion ++ completion stack := rfl

@[simp]
theorem formed_token : Formed (.token kind message :: stack) ↔ kind ≠ .eof ∧ Formed stack := Iff.rfl

@[simp]
theorem formed_part : Formed (.part p :: stack) ↔ p.Fits stack ∧ Formed stack := Iff.rfl

theorem ne_eof_of_startsOperand (h : kind.startsOperand = true) : kind ≠ .eof := fun heof => by
  rw [heof] at h
  cases h

/-- What an expression consists of is in place where the expression is. -/
theorem formed_operand {power : Power} (hfits : (Part.operators power).Fits stack)
    (hstack : Formed stack) (h : operand power kind = some items) : Formed (items ++ stack) := by
  unfold operand at h
  split at h
  case h_1 =>
    obtain rfl := Option.some.inj h
    exact ⟨Kind.noConfusion, hfits, hstack⟩
  case h_2 =>
    obtain rfl := Option.some.inj h
    exact ⟨Kind.noConfusion, ⟨.closeParen, rfl, .inr (.inl rfl)⟩, Kind.noConfusion, hfits, hstack⟩
  case h_3 =>
    split at h
    · next hstarts =>
      obtain rfl := Option.some.inj h
      exact ⟨ne_eof_of_startsOperand hstarts, hfits, hstack⟩
    · cases h

/-- What a statement consists of is in place wherever a statement is. -/
theorem formed_statement (kind : Kind) (hstack : Formed stack) :
    Formed (Part.statementForm kind ++ stack) := by
  unfold Part.statementForm
  split
  all_goals
    simp [Part.declaration, Part.conditional, Part.forEach, Part.whileLoop, Part.returns,
      Part.expressionOrAssignment, Part.Fits, Item.completion, Part.completion, closes, hstack]

/-- What a part consists of is in place where the part is. -/
theorem Part.Fits.formed_append (hfits : p.Fits stack) (hstack : Formed stack)
    (hp : p.predict kind = some items) : Formed (items ++ stack) := by
  cases p with
  | expression power => exact formed_operand hfits hstack hp
  | operators power =>
    rw [predict] at hp
    split at hp
    · split at hp
      · obtain rfl := Option.some.inj hp
        exact ⟨Kind.noConfusion, Kind.noConfusion, hfits, hstack⟩
      · split at hp
        · next hoperator =>
          obtain rfl := Option.some.inj hp
          exact ⟨(Kind.plain_of_isOperator hoperator).ne_eof, hfits, hfits, hstack⟩
        · cases hp
    · obtain rfl := Option.some.inj hp
      exact hstack
  | statement =>
    obtain rfl := Option.some.inj hp
    exact formed_statement kind hstack
  | afterName _ | firstArgument | moreArguments | typeMark _ | firstValue | firstParameter
  | moreParameters | fields =>
    obtain rfl := Option.some.inj hp
    split
    all_goals simp_all [Fits, Item.completion, Part.completion, field, parameter, closes]
  | body | branches | methods =>
    rw [predict] at hp
    repeat' split at hp
    all_goals cases hp
    all_goals simp_all [Fits, Item.completion, Part.completion, method, closes]

theorem formed_step (hs : Formed s.1) (h : step s = some t) : Formed t.1 := by
  rcases step_cases h with
    ⟨kind, message, stack, token, rest, rfl, rfl, -, -⟩ |
      ⟨p, items, stack, token, rest, rfl, rfl, hp⟩
  · exact hs.2
  · exact hs.1.formed_append hs.2 hp

/-- Every part is expected in a place where it can be, all the way. -/
theorem Reaches.formed (h : Reaches s t) (hs : Formed s.1) : Formed t.1 := by
  induction h with
  | refl => exact hs
  | tail _ hstep ih => exact formed_step ih hstep

/-! ## Supplies -/

/-- A token of a kind that stands a number of places before the last one. -/
def sample (last left : Nat) (kind : Kind) : Token :=
  ⟨kind, kind.spelling?.getD (if kind = .identifier then "x" else "0"),
    ⟨⟨last - left, ""⟩, ⟨last - left, ""⟩⟩⟩

/-- Tokens of some kinds, and the end of the text as the last. -/
def supply (last : Nat) : List Kind → List Token
  | [] => [sample last 0 .eof]
  | kind :: kinds => sample last (kinds.length + 1) kind :: supply last kinds

theorem sample_flaw (last left : Nat) (kind : Kind) : (sample last left kind).flaw? = none := by
  cases kind
  case integer =>
    have hvalue : Text.integer? (withoutPlus "0") = some 0 := by decide
    have hliteral : (sample last left .integer).literal = .ok (.integer 0) := by
      simp [Token.literal, sample, Kind.spelling?, hvalue]
    exact Token.flaw?_of_literal hliteral
  case decimal =>
    have hvalue : Decimal.read? (String.ofList (withoutPlus "0")) = some ⟨0, 0⟩ := by decide
    have hliteral : (sample last left .decimal).literal = .ok (.decimal ⟨0, 0⟩) := by
      simp [Token.literal, sample, Kind.spelling?, hvalue]
    exact Token.flaw?_of_literal hliteral
  case character =>
    have hliteral : (sample last left .character).literal = .ok (.character '0') := by
      simp [Token.literal, sample, Kind.spelling?]
    exact Token.flaw?_of_literal hliteral
  all_goals rfl

theorem power_of_closes (h : closes kind) : kind.power = .default := by
  rcases h with rfl | rfl | rfl | rfl <;> rfl

theorem predict_operators (power : Power) (h : kind.power = .default) :
    (Part.operators power).predict kind = some [] := by
  rw [Part.predict, h]
  exact if_neg (Nat.not_lt_zero _)

/-- No token that closes goes on with what stands before it. -/
theorem ne_of_closes (h : closes kind) :
    kind ≠ .openParen ∧ kind ≠ .colon ∧ kind ≠ .assignment := by
  rcases h with rfl | rfl | rfl | rfl <;> decide

theorem reaches_operators (power : Power) (h : closes token.kind) :
    Reaches (.part (.operators power) :: stack, token :: rest) (stack, token :: rest) :=
  .open (predict_operators power (power_of_closes h)) .refl

theorem reaches_afterName (power : Power) (h : closes token.kind) :
    Reaches (.part (.afterName power) :: stack, token :: rest) (stack, token :: rest) :=
  .open (congrArg some (if_neg (ne_of_closes h).1)) (reaches_operators power h)

theorem reaches_typeMark (message : String) (h : closes token.kind) :
    Reaches (.part (.typeMark message) :: stack, token :: rest) (stack, token :: rest) :=
  .open (congrArg some (if_neg (ne_of_closes h).2.1)) .refl

theorem reaches_firstValue (h : closes token.kind) :
    Reaches (.part .firstValue :: stack, token :: rest) (stack, token :: rest) :=
  .open (congrArg some (if_neg (ne_of_closes h).2.2)) .refl

/-- What ends in front of a token that closes it ends in front of what is supplied behind it. -/
theorem reaches_of_closed (last : Nat) {whole : List Item}
    (h : ∃ kind, (completion stack).head? = some kind ∧ closes kind)
    (hreaches : ∀ token rest, closes token.kind →
      Reaches (whole, token :: rest) (stack, token :: rest)) :
    Reaches (whole, supply last (completion stack)) (stack, supply last (completion stack)) := by
  obtain ⟨kind, hhead, hcloses⟩ := h
  obtain ⟨kinds, hkinds⟩ := List.head?_eq_some_iff.mp hhead
  rw [hkinds]
  exact hreaches _ _ hcloses

/-- A part that is expected where it can be is found in what is supplied for it. -/
theorem Part.Fits.reaches (last : Nat) (h : p.Fits stack) :
    Reaches (.part p :: stack, supply last (p.completion ++ Predictive.completion stack))
      (stack, supply last (Predictive.completion stack)) := by
  cases p with
  | expression power =>
    refine .open rfl (.take rfl (sample_flaw ..) ?_)
    exact reaches_of_closed last h fun _ _ => reaches_afterName power
  | afterName power => exact reaches_of_closed last h fun _ _ => reaches_afterName power
  | operators power => exact reaches_of_closed last h fun _ _ => reaches_operators power
  | typeMark message => exact reaches_of_closed last h fun _ _ => reaches_typeMark message
  | firstValue => exact reaches_of_closed last h fun _ _ => reaches_firstValue
  | statement =>
    have hcloses : closes .semicolon := .inl rfl
    refine .open rfl (.open rfl (.take rfl (sample_flaw ..) ?_))
    refine (reaches_afterName .default hcloses).trans ((reaches_firstValue hcloses).trans ?_)
    exact Reaches.take rfl (sample_flaw ..) .refl
  | firstArgument | moreArguments | body | branches | firstParameter | moreParameters =>
    exact .open rfl (.take rfl (sample_flaw ..) .refl)
  | fields =>
    obtain rfl := h
    exact .open rfl (.open rfl .refl)
  | methods =>
    obtain rfl := h
    exact .open rfl .refl

/-- Whatever is expected can be supplied. -/
theorem Formed.completes (last : Nat) (h : Formed stack) :
    Reaches (stack, supply last (completion stack)) ([], supply last []) := by
  induction stack with
  | nil => exact .refl
  | cons item stack ih =>
    cases item with
    | token kind message => exact .take rfl (sample_flaw ..) (ih h.2)
    | part p => exact (h.1.reaches last).trans (ih h.2)

theorem Formed.ne_eof (h : Formed stack) : ∀ kind ∈ completion stack, kind ≠ .eof := by
  induction stack with
  | nil => exact fun _ hmem => absurd hmem List.not_mem_nil
  | cons item stack ih =>
    rw [completion_cons]
    refine List.forall_mem_append.mpr ⟨?_, ih ?_⟩
    · cases item with
      | token kind message => exact List.forall_mem_singleton.mpr h.1
      | part p => cases p <;> simp [Item.completion, Part.completion]
    · cases item with
      | token kind message => exact h.2
      | part p => exact h.2

end Predictive

/-- Lists of tokens as texts give them. -/
structure Orderly (tokens : List Token) : Prop where
  /-- numbers and characters denote what they should -/
  denoting : ∀ token ∈ tokens, token.flaw? = none
  /-- tokens start one behind another -/
  ordered : tokens.Pairwise fun a b => a.span.start.offset < b.span.start.offset
  /-- the end of the text stands at the end and nowhere else -/
  closed : ∃ inner close, tokens = inner ++ [close] ∧ close.kind = .eof ∧
    ∀ token ∈ inner, token.kind ≠ .eof

/-- A token is known by where it starts. -/
theorem Orderly.index_unique {tokens : List Token} {i j : Nat} {a b : Token} (h : Orderly tokens)
    (ha : tokens[i]? = some a) (hb : tokens[j]? = some b) (hstart : a.span.start = b.span.start) :
    j = i := by
  obtain ⟨hi, rfl⟩ := List.getElem?_eq_some_iff.mp ha
  obtain ⟨hj, rfl⟩ := List.getElem?_eq_some_iff.mp hb
  have hordered := List.pairwise_iff_getElem.mp h.ordered
  rcases Nat.lt_trichotomy i j with hlt | heq | hgt
  · have hoffset := hordered i j hi hj hlt
    rw [hstart] at hoffset
    exact absurd hoffset (Nat.lt_irrefl _)
  · exact heq.symm
  · have hoffset := hordered j i hj hi hgt
    rw [hstart] at hoffset
    exact absurd hoffset (Nat.lt_irrefl _)

namespace Predictive

variable {kinds : List Kind} {last : Nat}

theorem le_offset_of_mem_supply : ∀ token ∈ supply last kinds,
    last - kinds.length ≤ token.span.start.offset := by
  induction kinds with
  | nil => exact List.forall_mem_singleton.mpr (Nat.le_refl last)
  | cons kind kinds ih =>
    refine List.forall_mem_cons.mpr ⟨Nat.le_refl _, fun token hmem => ?_⟩
    have hrest := ih token hmem
    rw [List.length_cons]
    omega

theorem orderly_supply (hlast : kinds.length ≤ last) (hkinds : ∀ kind ∈ kinds, kind ≠ .eof) :
    Orderly (supply last kinds) := by
  induction kinds with
  | nil =>
    refine ⟨List.forall_mem_singleton.mpr (sample_flaw ..), List.pairwise_singleton _ _,
      [], sample last 0 .eof, rfl, rfl, fun _ hmem => absurd hmem List.not_mem_nil⟩
  | cons kind kinds ih =>
    rw [List.length_cons] at hlast
    obtain ⟨hkind, hkinds⟩ := List.forall_mem_cons.mp hkinds
    obtain ⟨hdenoting, hordered, inner, close, hclosed, hclose, hinner⟩ := ih (by omega) hkinds
    refine ⟨List.forall_mem_cons.mpr ⟨sample_flaw .., hdenoting⟩,
      List.pairwise_cons.mpr ⟨fun token hmem => ?_, hordered⟩,
      sample last (kinds.length + 1) kind :: inner, close, congrArg (_ :: ·) hclosed, hclose,
      List.forall_mem_cons.mpr ⟨hkind, hinner⟩⟩
    have hbehind := le_offset_of_mem_supply token hmem
    change last - (kinds.length + 1) < _
    omega

/-- What is taken before a token can go on with what is supplied in its place. -/
theorem orderly_append_supply {taken rest : List Token} {token : Token}
    (h : Orderly (taken ++ token :: rest)) (hkinds : ∀ kind ∈ kinds, kind ≠ .eof) :
    Orderly (taken ++ supply (token.span.start.offset + kinds.length) kinds) := by
  obtain ⟨hdenoting, hordered, inner, close, hclosed, hclose, hinner⟩ := h
  obtain ⟨htaken, -, hbefore⟩ := List.pairwise_append.mp hordered
  have hsupply : Orderly (supply (token.span.start.offset + kinds.length) kinds) :=
    orderly_supply (Nat.le_add_left ..) hkinds
  have hfront : taken <+: inner := by
    rcases List.prefix_concat_iff.mp ⟨token :: rest, hclosed⟩ with heq | hfront
    · rw [← hclosed] at heq
      exact absurd (List.self_eq_append_right.mp heq) (List.cons_ne_nil token rest)
    · exact hfront
  refine ⟨List.forall_mem_append.mpr
      ⟨fun t hmem => hdenoting t (List.mem_append_left _ hmem), hsupply.denoting⟩,
    List.pairwise_append.mpr ⟨htaken, hsupply.ordered, fun a ha b hb => ?_⟩, ?_⟩
  · have hbehind := le_offset_of_mem_supply b hb
    have hfirst := hbefore a ha token List.mem_cons_self
    omega
  · obtain ⟨supplied, last, hsupplied, hlast, hne⟩ := hsupply.closed
    refine ⟨taken ++ supplied, last, ?_, hlast, List.forall_mem_append.mpr
      ⟨fun t hmem => hinner t (hfront.subset hmem), hne⟩⟩
    rw [hsupplied, List.append_assoc]

end Predictive

end TeachLang
