import TeachLang.Proofs.Viable

/-!
# What reading a program can say

A token at fault is either a number or character that denotes nothing, or one that is not expected,
with perhaps a word on what should stand there. There are only so many such words, all of which
stand in the recognizer. So tokens that denote what they should are never blamed for anything but
not being expected.
-/

namespace TeachLang

namespace Predictive

/-- The words on what should stand in front. -/
def messages : List String :=
  ["expected an expression", "expected `)` to close the group", "expected a type name",
    "expected identifier during variable declaration", "expected a loop variable",
    "fields require an explicit type", "expected identifier during field declaration",
    "expected a parameter name", "expected identifier during method declaration",
    "expected a return type name", "expected a field or method name after `.`",
    "expected `,` or `)` in argument list", "expected `,` or `)` in parameter list",
    "expected END before the end of input", "fields must be declared before methods",
    "expected a field (LET) or a method (DEF)"]

/-- Whether the word that an item has, or that a part has for one of its items, is one of them. -/
def Item.Spoken : Item → Prop
  | .token _ message => ∀ word ∈ message, word ∈ messages
  | .part (.typeMark message) => message ∈ messages
  | .part _ => True

variable {s t : State} {item : Item} {stack items : List Item} {tokens : List Token} {token : Token}
  {kind : Kind} {p : Part}

theorem message?_mem (p : Part) (kind : Kind) : ∀ word ∈ p.message? kind, word ∈ messages := by
  unfold Part.message?
  split <;> rintro _ ⟨⟩ <;> decide

theorem operand_spoken {power : Power} (h : operand power kind = some items) :
    ∀ item ∈ items, item.Spoken := by
  unfold operand at h
  split at h
  case h_3 =>
    split at h <;> cases h
    simp [Item.Spoken]
  all_goals
    cases h
    simp [Item.Spoken, messages]

theorem statement_spoken (kind : Kind) : ∀ item ∈ Part.statementForm kind, item.Spoken := by
  unfold Part.statementForm
  split <;>
    simp [Part.declaration, Part.conditional, Part.forEach, Part.whileLoop, Part.returns,
      Part.expressionOrAssignment, Item.Spoken, messages]

/-- What a part consists of has no other words. -/
theorem predict_spoken (hp : (Item.part p).Spoken) (h : p.predict kind = some items) :
    ∀ item ∈ items, item.Spoken := by
  cases p with
  | expression power => exact operand_spoken h
  | statement =>
    obtain rfl := Option.some.inj h
    exact statement_spoken kind
  | typeMark message =>
    obtain rfl := Option.some.inj h
    split
    · simpa [Item.Spoken] using hp
    · simp
  | _ =>
    rw [Part.predict] at h
    repeat' split at h
    all_goals cases h
    all_goals simp [Item.Spoken, Part.field, Part.method, Part.parameter, messages]

/-- No other words come up on the way. -/
theorem Reaches.spoken (h : Reaches s t) (hs : ∀ item ∈ s.1, item.Spoken) :
    ∀ item ∈ t.1, item.Spoken := by
  induction h with
  | refl => exact hs
  | tail _ hstep ih =>
    rcases step_cases hstep with
      ⟨kind, message, stack, token, rest, rfl, rfl, -, -⟩ |
        ⟨p, items, stack, token, rest, rfl, rfl, hp⟩
    · exact fun item hitem => ih item (List.mem_cons_of_mem _ hitem)
    · obtain ⟨hpart, hstack⟩ := List.forall_mem_cons.mp ih
      exact List.forall_mem_append.mpr ⟨predict_spoken hpart hp, hstack⟩

/-- A token that denotes what it should is only not expected. -/
theorem Item.Spoken.blame_eq (h : item.Spoken) (hflaw : token.flaw? = none) :
    ∃ message, item.blame token = token.unexpected message ∧ ∀ word ∈ message, word ∈ messages := by
  cases item with
  | token kind message =>
    refine ⟨message, ?_, h⟩
    rw [Item.blame, hflaw]
    exact ite_self _
  | part p => exact ⟨p.message? token.kind, rfl, message?_mem p token.kind⟩

/-- A failure among tokens that denote what they should is that one of them is not expected. -/
theorem Fails.eq_unexpected {diagnostic : Diagnostic} (h : Fails s diagnostic)
    (hs : ∀ item ∈ s.1, item.Spoken) (htokens : ∀ token ∈ s.2, token.flaw? = none) :
    ∃ token ∈ s.2, ∃ message, diagnostic = token.unexpected message ∧
      ∀ word ∈ message, word ∈ messages := by
  obtain ⟨item, stack, token, rest, hway, -, rfl⟩ := h
  obtain ⟨taken, middle, htaken, -⟩ := Reaches.split hway
  have hmem : token ∈ s.2 := by
    rw [htaken]
    simp
  have hitem := hway.spoken hs item (List.mem_cons_self ..)
  obtain ⟨message, hblame, hwords⟩ := hitem.blame_eq (htokens token hmem)
  exact ⟨token, hmem, message, hblame, hwords⟩

end Predictive

/-- What cannot be read of tokens that denote what they should is not expected. -/
theorem Program.unexpected_of_parse {tokens : List Token} {file : String} {diagnostic : Diagnostic}
    (htokens : ∀ token ∈ (Cursor.ofTokens tokens file).upcoming, token.flaw? = none)
    (h : parse tokens file = .error diagnostic) :
    ∃ token ∈ (Cursor.ofTokens tokens file).upcoming, ∃ message,
      diagnostic = token.unexpected message ∧ ∀ word ∈ message, word ∈ Predictive.messages := by
  have hfollows := (Cursor.ofTokens tokens file).program_follows
  rw [parse] at h
  cases hread : (Cursor.ofTokens tokens file).program with
  | ok read =>
    rw [hread] at h
    cases h
  | error failure =>
    rw [hread] at h hfollows
    obtain rfl : failure.diagnostic = diagnostic := Except.error.inj h
    exact hfollows.eq_unexpected (List.forall_mem_singleton.mpr trivial) htokens

end TeachLang
