import TeachLang.Java
import TeachLang.Proofs.Grammar
import TeachLang.Token.Scan

/-!
# What can be written

A text is **written** from words: each is spelled, the bodies of literals as they are emitted, and
blanks stand between them. `Word.Writable` says which words a text can hold at all, and
`Word.WritableAfter` which of them can stand one after another; that is not quite every list of
them, since a sign directly behind an operand is an operator.

The rules for the next piece of a text are tried one after the other, so that a word is found only
if none of the earlier rules takes a part of it.

* `leads` says that every writable word is the piece at its own front;
* `writableAt_of_piece` says that no piece is anything else;
* `tokenize_exact` puts the pieces of whole texts together.
-/

namespace TeachLang

/-! ## Blanks, names and digits -/

namespace Text

/-- The characters that may stand between words. -/
def blanks : List Char := [' ', '\x08', '\n', '\r', '\t']

/-- A letter of the Latin alphabet or an underscore, and behind it such letters, digits and
underscores. -/
def IsName (cs : List Char) : Prop :=
  ∃ c ds, cs = c :: ds ∧ (c.isAlpha = true ∨ c = '_') ∧ ∀ d ∈ ds, d.isAlphanum = true ∨ d = '_'

/-- Whether a word in front of the text ends there: nothing stands behind it, or a blank. -/
def Apart (rest : List Char) : Prop := ∀ c ∈ rest.head?, c ∈ blanks

theorem Apart.head {rest : List Char} (h : Apart rest) {p : Char → Bool}
    (hp : blanks.any p = false) : ∀ c ∈ rest.head?, p c = false := fun c hc =>
  Bool.eq_false_iff.mpr (List.any_eq_false.mp hp c (h c hc))

/-- A run ends where it is not gone on with. -/
theorem takeWhile_run {p : Char → Bool} {cs rest : List Char} (hcs : ∀ c ∈ cs, p c = true)
    (hrest : ∀ c ∈ rest.head?, p c = false) : (cs ++ rest).takeWhile p = cs := by
  rw [List.takeWhile_append_of_pos hcs]
  cases rest with
  | nil => simp
  | cons c rest => simp [hrest c rfl]

theorem dropWhile_run {p : Char → Bool} {cs rest : List Char} (hcs : ∀ c ∈ cs, p c = true)
    (hrest : ∀ c ∈ rest.head?, p c = false) : (cs ++ rest).dropWhile p = rest := by
  rw [List.dropWhile_append_of_pos hcs]
  cases rest with
  | nil => simp
  | cons c rest => simp [hrest c rfl]

theorem IsDigits.exists_head? {cs : List Char} (h : IsDigits cs) (rest : List Char) :
    ∃ c ∈ (cs ++ rest).head?, c.isDigit = true := by
  cases cs with
  | nil => exact absurd rfl h.ne_nil
  | cons c cs => exact ⟨c, rfl, h.isDigit c (List.mem_cons_self ..)⟩

end Text

/-! ## Words that a text can hold -/

namespace Word

/-- Whether a word can stand in a text. -/
def Writable (w : Word) : Prop :=
  match w.1 with
  | .eof => False
  | .identifier => Text.IsName w.2.toList ∧ ∀ kind ∈ Kind.reserved, kind.spelling? ≠ some w.2
  | .integer => ∃ sign ∈ Text.signs, ∃ cs, Text.IsDigits cs ∧ w.2 = String.ofList (sign ++ cs)
  | .decimal => ∃ sign ∈ Text.signs, ∃ cs ds, Text.IsDigits cs ∧ Text.IsDigits ds ∧
      w.2 = String.ofList (sign ++ (cs ++ '.' :: ds))
  | .character => ∃ c, w.2 = String.ofList [c]
  | .string => True
  | kind => kind.spelling? = some w.2

/-- Whether a word is a number that begins with a sign. -/
def Signed (w : Word) : Prop :=
  (w.1 = .integer ∨ w.1 = .decimal) ∧ ∃ c ∈ w.2.toList.head?, c = '+' ∨ c = '-'

/-- Whether a word can stand in a text at some place, behind what may be an operand or not. A sign
that stands behind an operand does not belong to a number. -/
structure WritableAt (afterOperand : Bool) (w : Word) : Prop where
  /-- it is spelled as words of its kind are -/
  writable : w.Writable
  /-- its sign, if it has one, is no operator -/
  sign : ¬ (afterOperand = true ∧ w.Signed)

/-- The text of a word: its own, or a quoted one if it is that of a literal. -/
def spelled (w : Word) : List Char :=
  match w.1 with
  | .character => (Java.enclosed '\'' w.2.toList).toList
  | .string => (Java.enclosed '"' w.2.toList).toList
  | _ => w.2.toList

/-- Whether words can stand in a text one after another, behind a word of the kind `previous` if
there is one. -/
def WritableAfter (previous : Option Kind) : List Word → Prop
  | [] => True
  | w :: ws => WritableAt (previous.any Kind.endsOperand) w ∧ WritableAfter (some w.1) ws

theorem writable_of_writableAfter {previous : Option Kind} {ws : List Word}
    (h : WritableAfter previous ws) : ∀ w ∈ ws, w.Writable := by
  induction ws generalizing previous with
  | nil => exact fun w hw => nomatch hw
  | cons w ws ih => exact List.forall_mem_cons.mpr ⟨h.1.writable, ih h.2⟩

end Word

namespace Token

open Text

/-! ## Quoted literals -/

/-- A character is written plainly, or as a backslash and a character that stands for it. -/
theorem escape_cases (c : Char) :
    (Java.escape c = [c] ∧ c ≠ '\\' ∧ c ≠ '"' ∧ c ≠ '\'' ∧ c ≠ '\n' ∧ c ≠ '\r') ∨
      ∃ d, Java.escape c = ['\\', d] ∧ escape? d = some c ∧ d ≠ '\n' := by
  by_cases h : c ∈ ['\\', '"', '\'', '\n', '\r', '\t', '\x08']
  · right
    simp only [List.mem_cons, List.not_mem_nil, or_false] at h
    rcases h with rfl | rfl | rfl | rfl | rfl | rfl | rfl <;>
      exact ⟨_, rfl, rfl, by decide⟩
  · left
    simp only [List.mem_cons, List.not_mem_nil, or_false, not_or] at h
    obtain ⟨hslash, hdouble, hsingle, hline, hreturn, htab, hback⟩ := h
    refine ⟨?_, hslash, hdouble, hsingle, hline, hreturn⟩
    unfold Java.escape
    split <;> first | contradiction | rfl

/-- A character that is no backslash stands for itself. -/
theorem decode_plain {c : Char} (hc : c ≠ '\\') {cs text : List Char}
    (h : decode cs = .ok text) : decode (c :: cs) = .ok (c :: text) := by
  rw [decode, h]
  all_goals simp [hc]

theorem decode_escaped {c d : Char} (hd : escape? d = some c) {cs text : List Char}
    (h : decode cs = .ok text) : decode ('\\' :: d :: cs) = .ok (c :: text) := by
  simp [decode, hd, h]

/-- What a text was written as between quotes denotes that text. -/
theorem decode_escape (text : List Char) : decode (text.flatMap Java.escape) = .ok text := by
  induction text with
  | nil => rfl
  | cons c text ih =>
    rw [List.flatMap_cons]
    rcases escape_cases c with ⟨heq, hslash, -⟩ | ⟨d, heq, hd, -⟩
    · rw [heq]
      exact decode_plain hslash ih
    · rw [heq]
      exact decode_escaped hd ih

/-- A quotation mark that is not escaped ends the literal. -/
theorem rawBody_quote (quote : Char) (hquote : quote ≠ '\\') (rest : List Char) :
    rawBody quote (quote :: rest) = some [] := by
  rw [rawBody, if_pos rfl]
  simp [hquote]

/-- The body of a literal ends at the quote behind it. -/
theorem rawBody_escape {quote : Char} (hquote : quote = '\'' ∨ quote = '"')
    (text rest : List Char) :
    rawBody quote (text.flatMap Java.escape ++ quote :: rest) =
      some (text.flatMap Java.escape) := by
  induction text with
  | nil => exact rawBody_quote quote (by rintro rfl; simp at hquote) rest
  | cons c text ih =>
    rw [List.flatMap_cons, List.append_assoc]
    rcases escape_cases c with ⟨heq, hslash, hdouble, hsingle, hline, hreturn⟩ | ⟨d, heq, -, hline⟩
    · have hne : c ≠ quote := by rintro rfl; tauto
      rw [heq, List.singleton_append, rawBody, if_neg hne, if_neg (by tauto), ih]
      · rfl
      · simp [hslash]
    · rw [heq]
      change rawBody quote ('\\' :: d :: (text.flatMap Java.escape ++ quote :: rest)) = _
      rw [rawBody, if_neg hline, ih]
      rfl

/-- An escape is one character of a literal. -/
theorem isSingle_escape (c : Char) : isSingle (Java.escape c) = true := by
  rcases escape_cases c with ⟨heq, -⟩ | ⟨d, heq, -⟩ <;> rw [heq] <;> rfl

/-- What a body of one character denotes is one character. -/
theorem singleton_of_decode {body text : List Char} (hbody : isSingle body = true)
    (h : decode body = .ok text) : ∃ c, text = [c] := by
  unfold isSingle at hbody
  split at hbody
  · next c =>
    by_cases hc : c = '\\'
    · subst hc
      cases h
    · exact ⟨c, Except.ok.inj (h.symm.trans (decode_plain hc rfl))⟩
  · next d =>
    cases hd : escape? d with
    | none => simp [decode, hd] at h
    | some c => exact ⟨c, Except.ok.inj (h.symm.trans (decode_escaped hd rfl))⟩
  · cases hbody

/-! ## Numbers -/

/-- What `numberText` takes off the front of a text: digits, and perhaps a point and more digits. -/
inductive IsNumber : List Char → Prop where
  /-- without a point -/
  | whole {cs : List Char} (digits : ∀ c ∈ cs, c.isDigit = true) : IsNumber cs
  /-- with a point -/
  | point {cs ds : List Char} (digits : ∀ c ∈ cs, c.isDigit = true) (places : IsDigits ds) :
    IsNumber (cs ++ '.' :: ds)

/-- Whether a number in front of the text ends there. -/
def EndsNumber (rest : List Char) : Prop := ∀ c ∈ rest.head?, c.isDigit = false ∧ c ≠ '.'

theorem endsNumber_of_apart {rest : List Char} (h : Apart rest) : EndsNumber rest := fun c hc =>
  ⟨h.head rfl c hc, fun hpoint => by
    subst hpoint
    exact absurd (h '.' hc) (by decide)⟩

/-- Digits in front of something that ends a number are the whole number. -/
theorem numberText_whole {cs rest : List Char} (hcs : ∀ c ∈ cs, c.isDigit = true)
    (hrest : EndsNumber rest) : numberText (cs ++ rest) = cs := by
  have hdigit : ∀ c ∈ rest.head?, c.isDigit = false := fun c hc => (hrest c hc).1
  simp only [numberText, takeWhile_run hcs hdigit, dropWhile_run hcs hdigit]
  split
  · exact absurd rfl (hrest '.' rfl).2
  · rfl

/-- So are digits, a point and more digits. -/
theorem numberText_point {cs ds rest : List Char} (hcs : ∀ c ∈ cs, c.isDigit = true)
    (hds : IsDigits ds) (hrest : EndsNumber rest) :
    numberText (cs ++ '.' :: ds ++ rest) = cs ++ '.' :: ds := by
  have hdigit : ∀ c ∈ rest.head?, c.isDigit = false := fun c hc => (hrest c hc).1
  have hpoint : ∀ c ∈ ('.' :: (ds ++ rest)).head?, c.isDigit = false := by simp
  rw [List.append_assoc, List.cons_append]
  simp only [numberText, takeWhile_run hcs hpoint, dropWhile_run hcs hpoint,
    takeWhile_run hds.isDigit hdigit, if_neg hds.ne_nil]

/-- Whatever is in front, what is taken for a number is one. -/
theorem isNumber_numberText (cs : List Char) : IsNumber (numberText cs) := by
  have hwhole : ∀ c ∈ cs.takeWhile Char.isDigit, c.isDigit = true := fun c hc =>
    List.mem_takeWhile_imp hc
  unfold numberText
  dsimp only
  split
  · split
    · exact .whole hwhole
    · next hne => exact .point hwhole ⟨hne, fun c hc => List.mem_takeWhile_imp hc⟩
  · exact .whole hwhole

theorem head?_numberText {c : Char} (hc : c.isDigit = true) (cs : List Char) :
    ∃ ds, numberText (c :: cs) = c :: ds := by
  simp only [numberText, List.takeWhile_cons_of_pos hc, List.dropWhile_cons_of_pos hc]
  split
  · split <;> exact ⟨_, rfl⟩
  · exact ⟨_, rfl⟩

theorem not_mem_point {cs : List Char} (h : ∀ c ∈ cs, c.isDigit = true) : '.' ∉ cs :=
  fun hmem => absurd (h _ hmem) (by decide)


/-! ## The piece at the front of a word -/

theorem isSeparator_iff (c : Char) : isSeparator c = true ↔ c ∈ blanks := by
  simp [isSeparator, blanks, or_assoc]

theorem isSeparator_of_notMem {c : Char} (h : c ∉ blanks) : isSeparator c = false :=
  Bool.eq_false_iff.mpr fun hc => h ((isSeparator_iff c).mp hc)

theorem notMem_blanks {p : Char → Bool} (hp : blanks.any p = false) {c : Char} (hc : p c = true) :
    c ∉ blanks := fun hmem => List.any_eq_false.mp hp c hmem hc

theorem startsWord_of_isDigit {c : Char} (h : c.isDigit = true) : startsWord c = false := by
  have hrange := toNat_of_isDigit h
  have hne : c ≠ '_' := ne_of_isDigit h rfl
  simp [startsWord, hne, Char.isAlpha, Char.isUpper, Char.isLower, UInt32.le_iff_toNat_le]
  omega

/-- A letter or an underscore starts a word, which goes on as long as words do. -/
theorem piece_word {c : Char} (hc : startsWord c = true) (after : Bool) (cs : List Char) :
    piece after c cs =
      .token (Kind.ofWord (String.ofList (c :: cs.takeWhile continuesWord)))
        (String.ofList (c :: cs.takeWhile continuesWord)) (cs.takeWhile continuesWord).length := by
  rw [piece, isSeparator_of_notMem (notMem_blanks rfl hc), if_neg Bool.false_ne_true, if_pos hc]

/-- A number begins with a digit, or with a sign that is not an operator. -/
theorem piece_number {after : Bool} {c : Char} {cs : List Char}
    (h : c.isDigit = true ∨
      (c = '+' ∨ c = '-') ∧ cs.head?.any Char.isDigit = true ∧ ¬ after = true) :
    piece after c cs = number c (numberText cs) := by
  by_cases hdigit : c.isDigit = true
  · have hsign : ¬ (c = '+' ∨ c = '-') :=
      not_or.mpr ⟨ne_of_isDigit hdigit rfl, ne_of_isDigit hdigit rfl⟩
    rw [piece, isSeparator_of_notMem (notMem_blanks rfl hdigit), startsWord_of_isDigit hdigit,
      if_neg Bool.false_ne_true, if_neg Bool.false_ne_true, if_neg fun h => hsign h.1,
      if_pos hdigit]
  · have hsign := h.resolve_left hdigit
    obtain ⟨rfl | rfl, -⟩ := id hsign
    · rw [piece, if_neg (by decide), if_neg (by decide), if_pos hsign]
    · rw [piece, if_neg (by decide), if_neg (by decide), if_pos hsign]

theorem piece_quote (after : Bool) (cs : List Char) :
    piece after '\'' cs = (match rawBody '\'' cs with
      | some body => if isSingle body then quotedLiteral .character body
        else .fault .unterminatedLiteral 0
      | none => .fault .unterminatedLiteral 0) ∧
    piece after '"' cs = (match rawBody '"' cs with
      | some body => quotedLiteral .string body
      | none => .fault .unterminatedLiteral 0) :=
  ⟨rfl, rfl⟩

/-- Whether the piece at the front of a text that begins with a word is that word, unless the word
could go on with what stands behind it. -/
def Leads (after : Bool) (w : Word) : Prop :=
  ∃ c cs, w.spelled = c :: cs ∧ c ∉ blanks ∧
    ∀ rest, Apart rest → piece after c (cs ++ rest) = .token w.1 w.2 cs.length

/-- A sign is found in front of a blank, and not the shorter one that it may begin with: the longer
ones are tried first. -/
theorem leads_symbol {kind : Kind} (h : kind ∈ symbols) (after : Bool) : Leads after kind.word := by
  simp only [symbols, List.mem_cons, List.not_mem_nil, or_false] at h
  rcases h with rfl | rfl | rfl | rfl | rfl | rfl | rfl | rfl | rfl | rfl | rfl | rfl | rfl | rfl |
    rfl | rfl | rfl
  all_goals
    refine ⟨_, _, rfl, by decide, fun rest hrest => ?_⟩
    cases rest with
    | nil => rfl
    | cons c rest =>
      have hc := hrest c rfl
      simp only [blanks, List.mem_cons, List.not_mem_nil, or_false] at hc
      rcases hc with rfl | rfl | rfl | rfl | rfl <;> rfl

/-- A word is reserved and then of its own kind, or it is a name. -/
theorem ofWord_cases (text : String) :
    (Kind.ofWord text).spelling? = some text ∨
      Kind.ofWord text = .identifier ∧ ∀ kind ∈ Kind.reserved, kind.spelling? ≠ some text := by
  unfold Kind.ofWord
  cases h : Kind.reserved.find? fun kind => kind.spelling? == some text with
  | none =>
    rw [List.find?_eq_none] at h
    exact .inr ⟨rfl, fun kind hkind heq => h kind hkind (beq_iff_eq.mpr heq)⟩
  | some kind =>
    have hkind := List.find?_some h
    exact .inl (beq_iff_eq.mp hkind)

theorem ofWord_name {text : String} (h : ∀ kind ∈ Kind.reserved, kind.spelling? ≠ some text) :
    Kind.ofWord text = .identifier := by
  have hnone : Kind.reserved.find? (fun kind => kind.spelling? == some text) = none :=
    List.find?_eq_none.mpr fun kind hkind heq => h kind hkind (beq_iff_eq.mp heq)
  rw [Kind.ofWord, hnone]
  rfl

/-- A word is found in front of a blank: no name continues with one. -/
theorem leads_word {w : Word} (hspelled : w.spelled = w.2.toList) (hname : IsName w.2.toList)
    (hkind : Kind.ofWord w.2 = w.1) (after : Bool) : Leads after w := by
  obtain ⟨c, cs, heq, hc, hcs⟩ := hname
  have hstart : startsWord c = true := by simpa [startsWord] using hc
  have hgo : ∀ d ∈ cs, continuesWord d = true := by simpa [continuesWord] using hcs
  refine ⟨c, cs, hspelled.trans heq, notMem_blanks rfl hstart, fun rest hrest => ?_⟩
  have hvalue : String.ofList (c :: cs) = w.2 := by rw [← heq, String.ofList_toList]
  rw [piece_word hstart, takeWhile_run hgo (hrest.head rfl), hvalue, hkind]

theorem leads_reserved {kind : Kind} (h : kind ∈ Kind.reserved) (after : Bool) :
    Leads after kind.word := by
  simp only [Kind.reserved, List.mem_cons, List.not_mem_nil, or_false] at h
  rcases h with rfl | rfl | rfl | rfl | rfl | rfl | rfl | rfl | rfl | rfl | rfl | rfl | rfl | rfl |
    rfl
  all_goals exact leads_word rfl (by simp [IsName, Kind.word, Kind.spelling?]) rfl after

theorem numberText_run {cs rest : List Char} (hcs : IsNumber cs) (hrest : EndsNumber rest) :
    numberText (cs ++ rest) = cs := by
  cases hcs with
  | whole digits => exact numberText_whole digits hrest
  | point digits places => exact numberText_point digits places hrest

theorem IsNumber.tail {c : Char} {cs : List Char} (h : IsNumber (c :: cs)) (hc : c.isDigit = true) :
    IsNumber cs := by
  generalize heq : c :: cs = text at h
  cases h with
  | whole digits =>
    subst heq
    exact .whole fun d hd => digits d (List.mem_cons_of_mem _ hd)
  | @point whole places hwhole hplaces =>
    cases whole with
    | nil =>
      obtain ⟨rfl, -⟩ := List.cons.inj heq
      cases hc
    | cons d whole =>
      obtain ⟨-, rfl⟩ := List.cons.inj heq
      exact .point (fun d hd => hwhole d (List.mem_cons_of_mem _ hd)) hplaces

/-- A number is found in front of a blank, and so is its sign, if the token before does not end an
operand. -/
theorem leads_number {sign tail : List Char} (hsign : sign ∈ signs) {after : Bool}
    (hafter : ¬ (after = true ∧ sign ≠ [])) (hfirst : ∃ c ∈ tail.head?, c.isDigit = true)
    (hnumber : IsNumber tail) {kind : Kind}
    (hkind : kind = if '.' ∈ tail then .decimal else .integer) :
    Leads after (kind, String.ofList (sign ++ tail)) := by
  have hspelled : Word.spelled (kind, String.ofList (sign ++ tail)) = sign ++ tail := by
    subst hkind
    split <;> exact String.toList_ofList
  obtain ⟨c, hhead, hdigit⟩ := hfirst
  obtain ⟨cs, rfl⟩ := List.head?_eq_some_iff.mp hhead
  by_cases hnone : sign = []
  · subst hnone
    have hpoint : '.' ≠ c := (ne_of_isDigit hdigit rfl).symm
    refine ⟨c, cs, hspelled, notMem_blanks rfl hdigit, fun rest hrest => ?_⟩
    rw [piece_number (.inl hdigit),
      numberText_run (hnumber.tail hdigit) (endsNumber_of_apart hrest), number, hkind]
    simp [hpoint]
  · -- the sign belongs to the number, since nothing that it could follow stands in front of it
    have hlone : ∃ s, sign = [s] ∧ (s = '+' ∨ s = '-') := by
      simp only [signs, List.mem_cons, List.not_mem_nil, or_false] at hsign
      rcases hsign with rfl | rfl | rfl
      · exact absurd rfl hnone
      · exact ⟨_, rfl, .inl rfl⟩
      · exact ⟨_, rfl, .inr rfl⟩
    obtain ⟨s, rfl, hs⟩ := hlone
    refine ⟨s, c :: cs, hspelled, by rcases hs with rfl | rfl <;> decide, fun rest hrest => ?_⟩
    rw [piece_number (.inr ⟨hs, by simpa using hdigit, fun h => hafter ⟨h, hnone⟩⟩),
      numberText_run hnumber (endsNumber_of_apart hrest), number, hkind]
    rfl

theorem leads_character (c : Char) (after : Bool) :
    Leads after (.character, String.ofList [c]) := by
  refine ⟨'\'', Java.escape c ++ ['\''], by simp [Word.spelled, Java.enclosed], by decide, ?_⟩
  intro rest _
  have hbody : rawBody '\'' (Java.escape c ++ ['\''] ++ rest) = some (Java.escape c) := by
    have hraw := rawBody_escape (.inl rfl) [c] rest
    rwa [List.flatMap_singleton, ← List.singleton_append, ← List.append_assoc] at hraw
  have hdecode : decode (Java.escape c) = .ok [c] := by
    simpa using decode_escape [c]
  rw [(piece_quote after _).1, hbody]
  simp [isSingle_escape, quotedLiteral, hdecode]

/-- An escaped text in quotation marks is found as that text. -/
theorem leads_string (text : String) (after : Bool) : Leads after (.string, text) := by
  refine ⟨'"', text.toList.flatMap Java.escape ++ ['"'], by simp [Word.spelled, Java.enclosed],
    by decide, ?_⟩
  intro rest _
  have hraw := rawBody_escape (.inr rfl) text.toList rest
  rw [← List.singleton_append, ← List.append_assoc] at hraw
  rw [(piece_quote after _).2, hraw]
  simp [quotedLiteral, decode_escape]

theorem signed_of_sign {sign tail : List Char} (hsign : sign ∈ signs) (hne : sign ≠ [])
    {kind : Kind} (hkind : kind = .integer ∨ kind = .decimal) :
    Word.Signed (kind, String.ofList (sign ++ tail)) := by
  simp only [signs, List.mem_cons, List.not_mem_nil, or_false] at hsign
  rcases hsign with rfl | rfl | rfl
  · exact absurd rfl hne
  · exact ⟨hkind, '+', by simp, .inl rfl⟩
  · exact ⟨hkind, '-', by simp, .inr rfl⟩

theorem leads_spelling {kind : Kind} {text : String} (h : kind.spelling? = some text)
    (after : Bool) : Leads after (kind, text) := by
  have hword : (kind, text) = kind.word := by rw [Kind.word, h]; rfl
  have hcases : kind ∈ symbols ∨ kind ∈ Kind.reserved := by
    cases kind <;> first | exact .inl (by decide) | exact .inr (by decide) | cases h
  rw [hword]
  exact hcases.elim (leads_symbol · after) (leads_reserved · after)

/-- A word that can stand in a text is the piece at its own front. -/
theorem leads {w : Word} (h : w.Writable) {after : Bool} (hsign : ¬ (after = true ∧ w.Signed)) :
    Leads after w := by
  obtain ⟨kind, text⟩ := w
  cases kind with
  | eof => exact h.elim
  | identifier => exact leads_word rfl h.1 (ofWord_name h.2) after
  | integer =>
    obtain ⟨sign, hmem, cs, hcs, heq⟩ := h
    obtain rfl : text = _ := heq
    have hafter : ¬ (after = true ∧ sign ≠ []) := fun hboth =>
      hsign ⟨hboth.1, signed_of_sign hmem hboth.2 (.inl rfl)⟩
    refine leads_number hmem hafter (by simpa using hcs.exists_head? []) (.whole hcs.isDigit) ?_
    rw [if_neg (not_mem_point hcs.isDigit)]
  | decimal =>
    obtain ⟨sign, hmem, cs, ds, hcs, hds, heq⟩ := h
    obtain rfl : text = _ := heq
    have hafter : ¬ (after = true ∧ sign ≠ []) := fun hboth =>
      hsign ⟨hboth.1, signed_of_sign hmem hboth.2 (.inr rfl)⟩
    refine leads_number hmem hafter (hcs.exists_head? _) (.point hcs.isDigit hds) ?_
    rw [if_pos (by simp)]
  | character =>
    obtain ⟨c, heq⟩ := h
    obtain rfl : text = _ := heq
    exact leads_character c after
  | string => exact leads_string text after
  | _ => exact leads_spelling h after

/-! ## What a piece can be -/

theorem writable_of_spelling {kind : Kind} {text : String} (h : kind.spelling? = some text) :
    Word.Writable (kind, text) ∧ ¬ Word.Signed (kind, text) := by
  cases kind <;> first | exact ⟨h, by simp [Word.Signed]⟩ | cases h

/-- What starts with digits, behind a sign if need be, can be written down as a number. -/
theorem writable_number {sign tail : List Char} (hsign : sign ∈ signs)
    (hfirst : ∃ c ∈ tail.head?, c.isDigit = true) (hnumber : IsNumber tail) :
    Word.Writable (if '.' ∈ tail then .decimal else .integer, String.ofList (sign ++ tail)) := by
  cases hnumber with
  | whole digits =>
    rw [if_neg (not_mem_point digits)]
    refine ⟨sign, hsign, tail, ⟨?_, digits⟩, rfl⟩
    rintro rfl
    simp at hfirst
  | @point cs ds digits places =>
    rw [if_pos (by simp)]
    refine ⟨sign, hsign, cs, ds, ⟨?_, digits⟩, places, rfl⟩
    rintro rfl
    simp at hfirst

theorem IsNumber.cons {c : Char} {cs : List Char} (h : IsNumber cs) (hc : c.isDigit = true) :
    IsNumber (c :: cs) := by
  have hmore : ∀ {ds : List Char}, (∀ d ∈ ds, d.isDigit = true) → ∀ d ∈ c :: ds, d.isDigit = true :=
    fun hds d hd => (List.mem_cons.mp hd).elim (fun heq => heq ▸ hc) (hds d)
  cases h with
  | whole digits => exact .whole (hmore digits)
  | point digits places => exact .point (hmore digits) places

theorem number_token {c : Char} {tail : List Char} {kind : Kind} {text : String} {more : Nat}
    (h : number c tail = .token kind text more) :
    kind = (if '.' ∈ tail then .decimal else .integer) ∧ text = String.ofList (c :: tail) := by
  injection h with hkind htext
  exact ⟨hkind.symm, htext.symm⟩

theorem quotedLiteral_token {kind found : Kind} {body : List Char} {text : String} {more : Nat}
    (h : quotedLiteral kind body = .token found text more) :
    found = kind ∧ decode body = .ok text.toList := by
  unfold quotedLiteral at h
  split at h
  · next hdecode =>
    injection h with hkind htext
    rw [← htext, String.toList_ofList]
    exact ⟨hkind.symm, hdecode⟩
  · cases h

theorem spelling_of_symbol? {cs : List Char} {kind : Kind} {text : String}
    (h : symbol? cs = some (kind, text)) : kind.spelling? = some text := by
  obtain ⟨k, -, hk⟩ := List.exists_of_findSome?_eq_some h
  obtain ⟨spelling, hspelling, hfound⟩ := Option.bind_eq_some_iff.mp hk
  split at hfound
  · cases hfound
    exact hspelling
  · cases hfound

theorem writableAt_unsigned {w : Word} (h : w.Writable ∧ ¬ w.Signed) (after : Bool) :
    Word.WritableAt after w := ⟨h.1, fun hboth => h.2 hboth.2⟩

/-- Words that are found can be written down again, reserved or not. -/
theorem writableAt_word {c : Char} (hc : startsWord c = true) (cs : List Char) (after : Bool) :
    Word.WritableAt after (Kind.ofWord (String.ofList (c :: cs.takeWhile continuesWord)),
      String.ofList (c :: cs.takeWhile continuesWord)) := by
  apply writableAt_unsigned
  rcases ofWord_cases (String.ofList (c :: cs.takeWhile continuesWord)) with
    hspelling | ⟨heq, hfree⟩
  · exact writable_of_spelling hspelling
  · rw [heq]
    refine ⟨⟨?_, hfree⟩, by simp [Word.Signed]⟩
    rw [String.toList_ofList]
    refine ⟨c, _, rfl, by simpa [startsWord] using hc, fun d hd => ?_⟩
    simpa [continuesWord] using List.mem_takeWhile_imp hd

/-- A sign is only taken into a number where it may be written. -/
theorem writableAt_signed {c : Char} (hc : c = '+' ∨ c = '-') {cs : List Char}
    (hcs : cs.head?.any Char.isDigit = true) {after : Bool} (hafter : ¬ after = true) :
    Word.WritableAt after (if '.' ∈ numberText cs then .decimal else .integer,
      String.ofList (c :: numberText cs)) := by
  have hmem : [c] ∈ signs := by rcases hc with rfl | rfl <;> decide
  obtain ⟨d, hd, hdigit⟩ := (Option.any_eq_true _ _).mp hcs
  obtain ⟨ds, rfl⟩ := List.head?_eq_some_iff.mp hd
  obtain ⟨es, heq⟩ := head?_numberText hdigit ds
  have hfirst : ∃ e ∈ (numberText (d :: ds)).head?, e.isDigit = true :=
    ⟨d, by rw [heq]; rfl, hdigit⟩
  have hwritable := writable_number hmem hfirst (isNumber_numberText _)
  rw [List.singleton_append] at hwritable
  exact ⟨hwritable, fun hboth => hafter hboth.1⟩

theorem writableAt_digit {c : Char} (hc : c.isDigit = true) {cs : List Char} (hcs : IsNumber cs)
    (after : Bool) :
    Word.WritableAt after (if '.' ∈ cs then .decimal else .integer, String.ofList (c :: cs)) := by
  have hpoint : '.' ≠ c := (ne_of_isDigit hc rfl).symm
  have hwritable := @writable_number [] (c :: cs) (List.mem_cons_self ..) ⟨c, rfl, hc⟩ (hcs.cons hc)
  apply writableAt_unsigned
  refine ⟨by simpa [hpoint] using hwritable, ?_⟩
  rintro ⟨-, d, hd, hsign⟩
  rw [String.toList_ofList] at hd
  obtain rfl := Option.some.inj hd
  exact hsign.elim (ne_of_isDigit hc rfl) (ne_of_isDigit hc rfl)

/-- A character that is found can be written down again, with an escape if it needs one. -/
theorem writableAt_character {body : List Char} (hbody : isSingle body = true) {text : String}
    (h : decode body = .ok text.toList) (after : Bool) :
    Word.WritableAt after (.character, text) := by
  obtain ⟨c, hc⟩ := singleton_of_decode hbody h
  have htext : text = String.ofList [c] := by rw [← hc, String.ofList_toList]
  exact @writableAt_unsigned (.character, text) ⟨⟨c, htext⟩, by simp [Word.Signed]⟩ after

/-- A word that was found at the front of a text can stand in one, and there. -/
theorem writableAt_of_piece {after : Bool} {c : Char} {cs : List Char} {kind : Kind} {text : String}
    {more : Nat} (h : piece after c cs = .token kind text more) :
    Word.WritableAt after (kind, text) := by
  unfold piece at h
  split at h
  · cases h
  split at h
  · next hstart =>
    injection h with hkind htext
    rw [← hkind, ← htext]
    exact writableAt_word hstart cs after
  split at h
  · next hsign =>
    obtain ⟨rfl, rfl⟩ := number_token h
    exact writableAt_signed hsign.1 hsign.2.1 hsign.2.2
  split at h
  · next hdigit =>
    obtain ⟨rfl, rfl⟩ := number_token h
    exact writableAt_digit hdigit (isNumber_numberText cs) after
  split at h
  · split at h
    · split at h
      · next hsingle =>
        obtain ⟨rfl, hdecode⟩ := quotedLiteral_token h
        exact writableAt_character hsingle hdecode after
      · cases h
    · cases h
  split at h
  · split at h
    · obtain ⟨rfl, -⟩ := quotedLiteral_token h
      exact @writableAt_unsigned (.string, text) ⟨trivial, by simp [Word.Signed]⟩ after
    · cases h
  split at h
  · next hsymbol =>
    cases h
    exact writableAt_unsigned (writable_of_spelling (spelling_of_symbol? hsymbol)) after
  · cases h

/-! ## Whole texts -/

/-- The words that are found in a text can be written one after another. -/
theorem writableAfter_scan (file : String) (offset : Nat) (previous : Option Kind) (cs : List Char)
    {length : Nat} (h : (scan file offset previous cs).finish = .ok length) :
    Word.WritableAfter previous ((scan file offset previous cs).tokens.map Token.word) := by
  induction offset, previous, cs using scan.induct file with
  | case1 offset previous => simp [scan, Word.WritableAfter]
  | case2 offset previous c cs more hpiece ih =>
    rw [scan, hpiece] at h ⊢
    exact ih h
  | case3 offset previous c cs kind text more hpiece stop ih =>
    rw [scan, hpiece] at h ⊢
    exact ⟨writableAt_of_piece hpiece, ih h⟩
  | case4 offset previous c cs fault bytes hpiece =>
    rw [scan, hpiece] at h
    cases h

/-- A text in which words stand one after another, each behind the blanks in front of it, and blanks
behind the last. -/
def written (parts : List (List Char × Word)) (behind : List Char) : List Char :=
  parts.flatMap (fun part => part.1 ++ part.2.spelled) ++ behind

/-- Whether words stand apart in a text: there is nothing but blanks around them, and at least one
between two of them. -/
structure Layout (parts : List (List Char × Word)) (behind : List Char) : Prop where
  /-- only blanks stand in front of a word -/
  front : ∀ part ∈ parts, ∀ c ∈ part.1, c ∈ blanks
  /-- something stands between two words -/
  between : ∀ part ∈ parts.tail, part.1 ≠ []
  /-- only blanks stand behind the last word -/
  behind : ∀ c ∈ behind, c ∈ blanks

/-- A run of blanks is passed over. -/
theorem scan_blanks (file : String) (offset : Nat) (previous : Option Kind) {cs rest : List Char}
    (hcs : ∀ c ∈ cs, c ∈ blanks) (hrest : ∀ c ∈ rest.head?, c ∉ blanks) :
    ∃ next, scan file offset previous (cs ++ rest) = scan file next previous rest := by
  cases cs with
  | nil => exact ⟨offset, rfl⟩
  | cons c cs =>
    have hc := (isSeparator_iff c).mpr (hcs c (List.mem_cons_self ..))
    have hrun : (cs ++ rest).takeWhile isSeparator = cs :=
      takeWhile_run (fun d hd => (isSeparator_iff d).mpr (hcs d (List.mem_cons_of_mem _ hd)))
        fun d hd => isSeparator_of_notMem (hrest d hd)
    have hpiece : piece (previous.any Kind.endsOperand) c (cs ++ rest) = .separators cs.length := by
      rw [piece, if_pos hc, hrun]
    rw [List.cons_append, scan, hpiece]
    simp only [List.drop_left]
    exact ⟨_, rfl⟩

/-- A word at the front of a text is taken off it. -/
theorem scan_word (file : String) (offset : Nat) {previous : Option Kind} {w : Word}
    (h : Word.WritableAt (previous.any Kind.endsOperand) w) {rest : List Char}
    (hrest : Apart rest) :
    ∃ span next, scan file offset previous (w.spelled ++ rest) =
      ⟨⟨w.1, w.2, span⟩ :: (scan file next (some w.1) rest).tokens,
        (scan file next (some w.1) rest).finish⟩ := by
  obtain ⟨c, cs, hspelled, -, hpiece⟩ := leads h.writable h.sign
  rw [hspelled, List.cons_append, scan, hpiece rest hrest]
  simp only [List.drop_left]
  exact ⟨_, _, rfl⟩

theorem Layout.tail {part : List Char × Word} {parts : List (List Char × Word)} {behind : List Char}
    (h : Layout (part :: parts) behind) : Layout parts behind where
  front := fun p hp => h.front p (List.mem_cons_of_mem _ hp)
  between := fun p hp => h.between p (List.mem_of_mem_tail hp)
  behind := h.behind

/-- What stands behind a word is apart from it. -/
theorem Layout.apart {part : List Char × Word} {parts : List (List Char × Word)}
    {behind : List Char} (h : Layout (part :: parts) behind) : Apart (written parts behind) := by
  intro c hc
  cases parts with
  | nil => exact h.behind c (List.mem_of_mem_head? hc)
  | cons second parts =>
    have hsecond : second ∈ second :: parts := List.mem_cons_self ..
    refine h.front second (List.mem_cons_of_mem _ hsecond) c (List.mem_of_mem_head? ?_)
    rwa [written, List.flatMap_cons, List.append_assoc, List.append_assoc,
      List.head?_append_of_ne_nil _ (h.between second hsecond)] at hc

/-- Words that stand apart are read as they were written. -/
theorem scan_written (file : String) {parts : List (List Char × Word)} {behind : List Char}
    (h : Layout parts behind) (offset : Nat) {previous : Option Kind}
    (hwords : Word.WritableAfter previous (parts.map Prod.snd)) :
    ∃ tokens length, scan file offset previous (written parts behind) = ⟨tokens, .ok length⟩ ∧
      tokens.map Token.word = parts.map Prod.snd := by
  induction parts generalizing offset previous with
  | nil =>
    obtain ⟨next, hblanks⟩ := @scan_blanks file offset previous behind [] h.behind
      fun c hc => nomatch hc
    refine ⟨[], next, ?_, rfl⟩
    rw [List.append_nil] at hblanks
    rw [written, List.flatMap_nil, List.nil_append, hblanks, scan]
  | cons part parts ih =>
    obtain ⟨front, w⟩ := part
    obtain ⟨hw, hwords⟩ := hwords
    obtain ⟨c, cs, hspelled, hc, -⟩ := leads hw.writable hw.sign
    have hfront : ∀ d ∈ (w.spelled ++ written parts behind).head?, d ∉ blanks := by
      intro d hd
      rw [hspelled] at hd
      obtain rfl := Option.some.inj hd
      exact hc
    obtain ⟨first, hblanks⟩ := scan_blanks file offset previous
      (h.front (front, w) (List.mem_cons_self ..)) hfront
    obtain ⟨span, next, hword⟩ := scan_word file first hw h.apart
    obtain ⟨tokens, length, hrest, htokens⟩ := ih h.tail next hwords
    refine ⟨⟨w.1, w.2, span⟩ :: tokens, length, ?_, by rw [List.map_cons, htokens]; rfl⟩
    have hsplit : written ((front, w) :: parts) behind =
        front ++ (w.spelled ++ written parts behind) := by
      simp [written]
    rw [hsplit, hblanks, hword, hrest]

/-- Written words are read back, and the end behind them. -/
theorem tokenize_written (file : String) {parts : List (List Char × Word)} {behind : List Char}
    (h : Layout parts behind) (hwords : Word.WritableAfter none (parts.map Prod.snd)) :
    ∃ tokens, tokenize (String.ofList (written parts behind)) file = .ok tokens ∧
      tokens.map Token.word = parts.map Prod.snd ++ [(.eof, "EOF")] := by
  obtain ⟨tokens, length, hscan, htokens⟩ := scan_written file h 0 hwords
  refine ⟨(tokens ++ [endOfText file length]).map stored, ?_, ?_⟩
  · rw [tokenize, scanText, String.toList_ofList, hscan]
  · rw [map_word_stored, List.map_append, htokens]
    rfl

/-- Tokens that are found can be written down, in their order. -/
theorem writableAfter_of_tokenize {source file : String} {tokens : List Token}
    (h : tokenize source file = .ok tokens) :
    ∃ words, tokens.map Token.word = words ++ [(.eof, "EOF")] ∧ Word.WritableAfter none words := by
  obtain ⟨found, hfound, rfl⟩ := scanText_of_tokenize h
  rw [scanText] at hfound
  split at hfound
  · next length hfinish =>
    obtain rfl := Except.ok.inj hfound
    refine ⟨_, ?_, writableAfter_scan file 0 none _ hfinish⟩
    rw [map_word_stored, List.map_append]
    rfl
  · cases hfound

/-- Tokens are exactly what can be written: words that can stand one after another are read as they
were written, whatever blanks stand between them, and nothing else is ever read. -/
theorem tokenize_exact :
    (∀ (parts : List (List Char × Word)) (behind : List Char) (file : String),
      Layout parts behind → Word.WritableAfter none (parts.map Prod.snd) →
      ∃ tokens, tokenize (String.ofList (written parts behind)) file = .ok tokens ∧
        tokens.map Token.word = parts.map Prod.snd ++ [(.eof, "EOF")]) ∧
    (∀ (source file : String) (tokens : List Token), tokenize source file = .ok tokens →
      ∃ words, tokens.map Token.word = words ++ [(.eof, "EOF")] ∧
        Word.WritableAfter none words) :=
  ⟨fun _ _ file h hwords => tokenize_written file h hwords,
    fun _ _ _ h => writableAfter_of_tokenize h⟩

/-- Words that are easily mistaken for others, with the blanks in front of them. -/
def trickyWords : List (List Char × Word) :=
  [([], (.identifier, "IFX")), ([' '], (.dash, "-")), (['\n'], (.integer, "-07")),
    (['\t'], (.plus, "+")), (['\x08', ' '], (.decimal, "+0.50")), ([' '], (.character, "'")),
    (['\r'], (.less, "<")), ([' '], (.assignment, "=")), ([' '], (.string, "\\\"\n")),
    ([' '], (.ifWord, "IF"))]

theorem trickyWords_writable : Word.WritableAfter none (trickyWords.map Prod.snd) := by
  have hname : IsName "IFX".toList := by simp [IsName]
  have hseven : IsDigits ['0', '7'] := ⟨by simp, by simp⟩
  have hzero : IsDigits ['0'] := ⟨by simp, by simp⟩
  have hfifty : IsDigits ['5', '0'] := ⟨by simp, by simp⟩
  refine ⟨⟨⟨hname, by decide⟩, by simp⟩, ⟨rfl, ?_⟩, ⟨⟨['-'], by decide, _, hseven, rfl⟩, ?_⟩,
    ⟨rfl, ?_⟩, ⟨⟨['+'], by decide, _, _, hzero, hfifty, rfl⟩, ?_⟩, ⟨⟨'\'', rfl⟩, ?_⟩,
    ⟨rfl, ?_⟩, ⟨rfl, ?_⟩, ⟨trivial, ?_⟩, ⟨rfl, ?_⟩, trivial⟩
  all_goals simp [Word.Signed, Kind.endsOperand]

theorem tricky_words_tokenized : ∃ tokens,
    tokenize "IFX -\n-07\t+\x08 +0.50 '\\''\r< = \"\\\\\\\"\\n\" IF\n" "tricky" = .ok tokens ∧
      tokens.map Token.word = trickyWords.map Prod.snd ++ [(.eof, "EOF")] ∧
      ∃ words, tokens.map Token.word = words ++ [(.eof, "EOF")] ∧
        Word.WritableAfter none words := by
  have hlayout : Layout trickyWords ['\n'] :=
    ⟨by simp [trickyWords, blanks], by simp [trickyWords], by simp [blanks]⟩
  obtain ⟨tokens, htokens, hwords⟩ :=
    tokenize_exact.1 trickyWords ['\n'] "tricky" hlayout trickyWords_writable
  exact ⟨tokens, htokens, hwords, tokenize_exact.2 _ _ tokens htokens⟩

end Token

end TeachLang
