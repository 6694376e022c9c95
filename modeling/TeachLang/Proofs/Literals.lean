import TeachLang.Proofs.Expectations
import TeachLang.Proofs.Hulls

/-!
# Literals are what they denote

A literal is read in two steps, by the scanner and then by whoever reads the token. `Text.Denotes`
says without either what the text of a literal denotes. Every token of a text that is a constant by
its kind denotes one, the one that its lexeme denotes, so that no number of a text is malformed and
no character is missing; and a literal of a program is a token of the text (`Program.parse_hulls`).

A sign in front of the digits of a number belongs to it unless an operand ends in front of the sign
(`Text.SignBelongs`).
-/

namespace TeachLang

/-! ## What literals denote -/

namespace Text

/-- No text has more bytes than this: sizes are kept in 64 bits, one of them for a sign. -/
def sizeLimit : Nat := 9223372036854775807

/-- The characters that a backslash can take with it, each with the one that the two stand for. -/
def escapePairs : List (Char × Char) :=
  [('b', '\x08'), ('n', '\n'), ('r', '\r'), ('t', '\t'), ('\'', '\''), ('"', '"'), ('\\', '\\')]

/-- What a body denotes: its characters, but for those with a backslash. -/
inductive Unescapes : List Char → List Char → Prop where
  /-- nothing is left -/
  | nil : Unescapes [] []
  /-- a character that stands for itself -/
  | plain {c : Char} {body text : List Char} :
    c ≠ '\\' → Unescapes body text → Unescapes (c :: body) (c :: text)
  /-- a backslash with the character that it takes with it -/
  | escape {c d : Char} {body text : List Char} :
    (c, d) ∈ escapePairs → Unescapes body text → Unescapes ('\\' :: c :: body) (d :: text)

/-- What the text of a literal denotes, given by its sign and all that is behind the sign. -/
inductive Denotes : List Char → List Char → Literal → Prop where
  /-- the word for no value -/
  | nilWord : Denotes [] "NIL".toList .nil
  /-- the word for what holds -/
  | trueWord : Denotes [] "TRUE".toList (.boolean true)
  /-- the word for what does not hold -/
  | falseWord : Denotes [] "FALSE".toList (.boolean false)
  /-- digits, which denote a whole number -/
  | integer {sign digits : List Char} : sign ∈ signs → IsDigits digits →
    Denotes sign digits (.integer (signed sign (digitsValue digits)))
  /-- digits with a point, behind which there are as many of them as the scale says -/
  | decimal {sign whole places : List Char} : sign ∈ signs → IsDigits whole → IsDigits places →
    Denotes sign (whole ++ '.' :: places)
      (.decimal ⟨signed sign (digitsValue (whole ++ places)), places.length⟩)
  /-- one character between single quotes -/
  | character {body lexeme : List Char} {c : Char} : Token.Quoted .character body lexeme →
    Unescapes body [c] → Denotes [] lexeme (.character c)
  /-- a text between double quotes -/
  | string {body lexeme text : List Char} : Token.Quoted .string body lexeme →
    Unescapes body text → Denotes [] lexeme (.string (String.ofList text))

theorem mem_escapePairs {c d : Char} (h : Token.escape? c = some d) : (c, d) ∈ escapePairs := by
  unfold Token.escape? at h
  split at h <;> cases h <;> simp [escapePairs]

theorem unescapes_of_decode {body text : List Char} (h : Token.decode body = .ok text) :
    Unescapes body text := by
  fun_induction Token.decode body generalizing text with
  | case1 =>
    obtain rfl := Except.ok.inj h
    exact .nil
  | case2 | case3 | case5 | case7 => cases h
  | case4 c cs d hd _ htext ih =>
    obtain rfl := Except.ok.inj h
    exact .escape (mem_escapePairs hd) (ih htext)
  | case6 c cs hlast hescape _ htext ih =>
    obtain rfl := Except.ok.inj h
    refine .plain ?_ (ih htext)
    rintro rfl
    cases cs with
    | nil => exact hlast rfl rfl
    | cons c cs => exact hescape c cs rfl rfl

end Text

/-- Whether a literal is a number. -/
def Literal.IsNumber : Literal → Prop
  | .integer _ | .decimal _ => True
  | _ => False

/-- A number has digits behind its sign. -/
theorem Text.Denotes.number {sign rest : List Char} {value : Literal}
    (h : Text.Denotes sign rest value) (hnumber : value.IsNumber) :
    sign ∈ Text.signs ∧ ∃ c ∈ rest.head?, c.isDigit = true := by
  cases h with
  | integer hsign hdigits =>
    obtain ⟨c, hc, hdigit⟩ := hdigits.exists_head? []
    exact ⟨hsign, c, by rwa [List.append_nil] at hc, hdigit⟩
  | decimal hsign hwhole => exact ⟨hsign, hwhole.exists_head? _⟩
  | _ => exact hnumber.elim

/-! ## Constants among the tokens -/

namespace Token

open Text

variable {token : Token} {lexeme : List Char}

/-- The kinds of the tokens that are constants. -/
def constants : List Kind :=
  [.nilWord, .trueWord, .falseWord, .integer, .decimal, .character, .string]

theorem constant_of_literal {value : Literal} (h : token.literal = .ok value) :
    token.kind ∈ constants := by
  obtain ⟨kind, text, span⟩ := token
  cases kind <;> first | exact List.mem_of_elem_eq_true rfl | cases h

/-- What a token denotes does not depend on where it stands. -/
theorem literal_of_word_eq {other : Token} {value : Literal} (hword : token.word = other.word)
    (h : token.literal = .ok value) : other.literal = .ok value := by
  obtain ⟨kind, text, span⟩ := token
  obtain ⟨kind', text', span'⟩ := other
  obtain ⟨rfl, rfl⟩ : kind = kind' ∧ text = text' := Prod.mk.inj hword
  unfold literal at h ⊢
  cases kind
  case integer =>
    cases hread : Text.integer? (withoutPlus text) <;> simp_all
  case decimal =>
    cases hread : Decimal.read? (String.ofList (withoutPlus text)) <;> simp_all
  case character =>
    cases hread : text.toList <;> simp_all
  all_goals first | exact h | cases h

theorem number_of_literal {value : Literal} (h : token.literal = .ok value)
    (hnumber : value.IsNumber) : token.kind = .integer ∨ token.kind = .decimal := by
  obtain ⟨kind, text, span⟩ := token
  cases kind
  case integer => exact .inl rfl
  case decimal => exact .inr rfl
  case character =>
    cases htext : text.toList with
    | nil => simp [literal, htext] at h
    | cons c cs =>
      simp only [literal, htext] at h
      obtain rfl := Except.ok.inj h
      exact hnumber.elim
  case nilWord | trueWord | falseWord | string =>
    obtain rfl := Except.ok.inj h
    exact hnumber.elim
  all_goals cases h

/-- A constant among the tokens of a text denotes what its lexeme denotes. -/
theorem denotes_of_shows (hkind : token.kind ∈ constants) (hwritable : token.word.Writable)
    (hshows : Shows token.kind token.value lexeme) (hsize : byteLength lexeme ≤ sizeLimit) :
    ∃ sign rest value, lexeme = sign ++ rest ∧ token.literal = .ok value ∧
      Denotes sign rest value := by
  obtain ⟨kind, text, span⟩ := token
  simp only [constants, List.mem_cons, List.not_mem_nil, or_false] at hkind
  rcases hkind with rfl | rfl | rfl | rfl | rfl | rfl | rfl
  · obtain rfl := Option.some.inj hwritable
    exact ⟨[], _, _, hshows, rfl, .nilWord⟩
  · obtain rfl := Option.some.inj hwritable
    exact ⟨[], _, _, hshows, rfl, .trueWord⟩
  · obtain rfl := Option.some.inj hwritable
    exact ⟨[], _, _, hshows, rfl, .falseWord⟩
  · obtain ⟨sign, hsign, digits, hdigits, rfl⟩ := hwritable
    have hlexeme : lexeme = sign ++ digits := hshows.trans String.toList_ofList
    exact ⟨sign, digits, _, hlexeme, by simp only [literal, integer?_written hsign hdigits],
      .integer hsign hdigits⟩
  · obtain ⟨sign, hsign, whole, places, hwhole, hplaces, rfl⟩ := hwritable
    have hlexeme : lexeme = sign ++ (whole ++ '.' :: places) := hshows.trans String.toList_ofList
    have hfits : Decimal.scaleFits places.length = true := by
      have hlength := Nat.le_trans (length_le_byteLength lexeme) hsize
      rw [hlexeme] at hlength
      simp only [List.length_append, List.length_cons, sizeLimit] at hlength
      simp only [Decimal.scaleFits, Bool.and_eq_true, decide_eq_true_eq]
      omega
    refine ⟨sign, _, _, hlexeme, ?_, .decimal hsign hwhole hplaces⟩
    simp only [literal, Decimal.read?_written hsign hwhole hplaces, if_pos hfits]
  · obtain ⟨body, hquoted, hdecode⟩ := hshows
    obtain ⟨c, rfl⟩ := hwritable
    rw [String.toList_ofList] at hdecode
    refine ⟨[], _, _, rfl, ?_, .character hquoted (unescapes_of_decode hdecode)⟩
    simp only [literal, String.toList_ofList]
  · obtain ⟨body, hquoted, hdecode⟩ := hshows
    refine ⟨[], _, _, rfl, ?_, .string hquoted (unescapes_of_decode hdecode)⟩
    simp only [literal, String.ofList_toList]

/-! ## Signs -/

/-- The last of the tokens that stop in front of a place in the text. -/
def lastBefore (tokens : List Token) (place : Nat) : Option Token :=
  (tokens.filter (·.span.stop.offset ≤ place)).getLast?

/-- A sign that touches digits is theirs unless an operand ends in front of the sign. The digits
stand behind their own sign, which may be empty, from an offset on. -/
def SignBelongs (text : List Char) (tokens : List Token) (start : Nat) (sign : List Char) : Prop :=
  ∀ place c, c = '+' ∨ c = '-' → Slice text place (start + byteLength sign) [c] →
    (sign = [c] ↔ (lastBefore tokens place).any (·.kind.endsOperand) = false)

theorem SignsFit.behind {tokens : List Token} : ∀ {before : List Token} {previous : Option Kind},
    SignsFit previous (before ++ tokens) →
      SignsFit ((before.getLast?.map (·.kind)).or previous) tokens
  | [], _, h => h
  | first :: before, previous, h => by
    have hrest := SignsFit.behind h.2.2
    rw [List.getLast?_cons]
    cases hlast : before.getLast? with
    | none => rwa [hlast] at hrest
    | some last => rwa [hlast] at hrest

/-- Two parts of a text that stop in one place end alike. -/
theorem append_eq_of_slice {text first second : List Char} {start place stop : Nat}
    (h : Slice text start stop first) (h' : Slice text place stop second) :
    ∃ front front', front ++ first = front' ++ second ∧ byteLength front = start ∧
      byteLength front' = place := by
  obtain ⟨front, back, htext, hstart, hstop⟩ := h
  obtain ⟨front', back', htext', hplace, hstop'⟩ := h'
  have hlength : byteLength (front ++ first) = byteLength (front' ++ second) := by
    rw [byteLength_append, byteLength_append, hstart, hplace, hstop, hstop']
  exact ⟨front, front', (append_inj_of_byteLength (htext.symm.trans htext') hlength).1, hstart,
    hplace⟩

/-- The last character of a part of a text that is not empty. -/
theorem getLast?_of_slice {text inner : List Char} {start place stop : Nat} {c : Char}
    (h : Slice text start stop inner) (hc : Slice text place stop [c]) (hne : inner ≠ []) :
    c ∈ inner.getLast? := by
  obtain ⟨front, front', heq, -, -⟩ := append_eq_of_slice h hc
  have hlast := congrArg List.getLast? heq
  rw [List.getLast?_append_of_ne_nil _ hne, List.getLast?_concat] at hlast
  exact hlast

/-- A sign that stands where another one ends is that sign. -/
theorem eq_of_sign {text rest : List Char} {start place stop : Nat} {c e : Char}
    (he : e = '+' ∨ e = '-') (hc : c = '+' ∨ c = '-') (h : Slice text start stop ([e] ++ rest))
    (hplace : Slice text place (start + byteLength [e]) [c]) : place = start ∧ e = c := by
  obtain ⟨front, back, htext, hstart, -⟩ := h
  obtain ⟨front', back', htext', hfront, hstop⟩ := hplace
  have hwidth : byteLength [c] = byteLength [e] := by
    rcases hc with rfl | rfl <;> rcases he with rfl | rfl <;> rfl
  have hsame : place = start := by omega
  rw [List.append_assoc] at htext htext'
  obtain ⟨-, hbehind⟩ := append_inj_of_byteLength (htext.symm.trans htext')
    (hstart.trans (hsame.symm.trans hfront.symm))
  exact ⟨hsame, (List.cons.inj hbehind).1⟩

/-- A character in front of which there is a blank part of the text is a blank. -/
theorem mem_blanks_of_blank {text : List Char} {start place stop : Nat} {c : Char}
    (h : Blank text start stop) (hc : Slice text place stop [c]) (hlt : start < stop) :
    c ∈ blanks := by
  obtain ⟨gap, hslice, hgap⟩ := h
  have hne : gap ≠ [] := by
    rintro rfl
    obtain ⟨-, -, -, -, hstop⟩ := hslice
    exact absurd hstop (Nat.ne_of_lt hlt)
  exact hgap c (List.mem_of_mem_getLast? (getLast?_of_slice hslice hc hne))

/-- Digits do not end with a sign, whatever stands in front of them. -/
theorem not_sign_of_digits {front digits : List Char} (hdigits : IsDigits digits) {c : Char}
    (hc : c = '+' ∨ c = '-') : c ∉ (front ++ digits).getLast? := by
  intro hlast
  rw [List.getLast?_append_of_ne_nil _ hdigits.ne_nil] at hlast
  have hdigit := hdigits.isDigit c (List.mem_of_mem_getLast? hlast)
  rcases hc with rfl | rfl <;> cases hdigit

/-- Names do not end with a sign. -/
theorem not_sign_of_name {text : List Char} (hname : IsName text) {c : Char}
    (hc : c = '+' ∨ c = '-') : c ∉ text := by
  obtain ⟨first, others, rfl, hfirst, hothers⟩ := hname
  intro hmem
  rcases List.mem_cons.mp hmem with rfl | hmem
  · rcases hc with rfl | rfl <;> simp at hfirst
  · have hother := hothers c hmem
    rcases hc with rfl | rfl <;> simp at hother

/-- What stands between quotes does not end with a sign. -/
theorem not_sign_of_quoted {kind : Kind} {body lexeme : List Char} (h : Quoted kind body lexeme)
    {c : Char} (hc : c = '+' ∨ c = '-') : c ∉ lexeme.getLast? := by
  intro hlast
  cases h <;>
    · rw [List.getLast?_concat] at hlast
      rcases hc with rfl | rfl <;> cases hlast

/-- Only the operators that are signs end with a sign. -/
theorem operator_of_getLast? {token : Token} {lexeme : List Char} (hwritable : token.word.Writable)
    (hshows : Shows token.kind token.value lexeme) {c : Char} (hc : c = '+' ∨ c = '-')
    (hlast : c ∈ lexeme.getLast?) :
    (token.kind = .plus ∨ token.kind = .dash) ∧ lexeme = [c] := by
  obtain ⟨kind, text, span⟩ := token
  cases kind
  case eof => exact hwritable.elim
  case identifier =>
    obtain rfl : lexeme = text.toList := hshows
    exact absurd (List.mem_of_mem_getLast? hlast) (not_sign_of_name hwritable.1 hc)
  case integer =>
    obtain ⟨sign, -, digits, hdigits, rfl⟩ := hwritable
    obtain rfl : lexeme = sign ++ digits := hshows.trans String.toList_ofList
    exact absurd hlast (not_sign_of_digits hdigits hc)
  case decimal =>
    obtain ⟨sign, -, whole, places, -, hplaces, rfl⟩ := hwritable
    obtain rfl : lexeme = (sign ++ (whole ++ ['.'])) ++ places :=
      (hshows.trans String.toList_ofList).trans (by simp)
    exact absurd hlast (not_sign_of_digits hplaces hc)
  case character | string =>
    obtain ⟨body, hquoted, -⟩ := hshows
    exact absurd hlast (not_sign_of_quoted hquoted hc)
  case plus =>
    obtain rfl := Option.some.inj hwritable
    obtain rfl : lexeme = "+".toList := hshows
    obtain rfl : '+' = c := by simpa using hlast
    exact ⟨.inl rfl, rfl⟩
  case dash =>
    obtain rfl := Option.some.inj hwritable
    obtain rfl : lexeme = "-".toList := hshows
    obtain rfl : '-' = c := by simpa using hlast
    exact ⟨.inr rfl, rfl⟩
  all_goals
    obtain rfl := Option.some.inj hwritable
    obtain rfl := hshows
    rcases hc with rfl | rfl <;> simp at hlast

section

variable {source file : String} {before behind : List Token} {token : Token}

/-- The tokens in front of one are those that stop where it starts or before. -/
theorem lastBefore_start
    (h : Tiling source file (before ++ token :: behind)) :
    lastBefore (before ++ token :: behind ++ [endOfText file source.utf8ByteSize])
      token.span.start.offset = before.getLast? := by
  have hmem : token ∈ before ++ token :: behind := by simp
  obtain ⟨-, hordered, hfront⟩ := List.pairwise_append.mp h.ordered
  have hbehind := (List.pairwise_cons.mp hordered).1
  have hpos : ∀ t ∈ before ++ token :: behind, t.span.start.offset < t.span.stop.offset := by
    intro t ht
    obtain ⟨-, -, hlt, -⟩ := h.lexeme t ht
    exact hlt
  have hbefore : ∀ t ∈ before, t.span.stop.offset ≤ token.span.start.offset :=
    fun t ht => hfront t ht token (List.mem_cons_self ..)
  have hrest : ∀ t ∈ token :: behind ++ [endOfText file source.utf8ByteSize],
      ¬ t.span.stop.offset ≤ token.span.start.offset := by
    have hstop := hpos token hmem
    intro t ht
    rcases List.mem_append.mp ht with ht | ht
    · have hown := hpos t (List.mem_append_right _ ht)
      rcases List.mem_cons.mp ht with rfl | ht
      · omega
      · have := hbehind t ht
        omega
    · obtain rfl := List.mem_singleton.mp ht
      have hend : token.span.stop.offset ≤ source.utf8ByteSize :=
        (h.place token (List.mem_append_left _ hmem)).stop.boundary.le_utf8ByteSize
      change ¬ source.utf8ByteSize ≤ _
      omega
  rw [lastBefore, List.append_assoc, List.filter_append,
    List.filter_eq_self.mpr fun t ht => decide_eq_true (hbefore t ht),
    List.filter_eq_nil_iff.mpr fun t ht => by simpa using hrest t ht, List.append_nil]

/-- A sign right in front of a token is a token of its own. -/
theorem operator_in_front (h : Tiling source file (before ++ token :: behind))
    (hwritable : ∀ t ∈ before ++ token :: behind, t.word.Writable) {place : Nat} {c : Char}
    (hc : c = '+' ∨ c = '-') (hplace : Slice source.toList place token.span.start.offset [c]) :
    ∃ earlier op, before = earlier ++ [op] ∧ (op.kind = .plus ∨ op.kind = .dash) ∧
      op.span.start.offset = place ∧ op.span.stop.offset = token.span.start.offset := by
  have hwidth : place + 1 = token.span.start.offset := by
    obtain ⟨-, -, -, -, hstop⟩ := hplace
    rcases hc with rfl | rfl <;> exact hstop
  have hnot : c ∉ blanks := by rcases hc with rfl | rfl <;> decide
  rcases List.eq_nil_or_concat before with rfl | ⟨earlier, op, rfl⟩
  · exact absurd (mem_blanks_of_blank (h.front token rfl) hplace (by omega)) hnot
  · rw [List.concat_eq_append] at h hwritable
    have hmem : op ∈ earlier ++ [op] ++ token :: behind := by simp
    have hgap : Blank source.toList op.span.stop.offset token.span.start.offset := by
      have hbetween := h.between
      rw [List.append_assoc, List.isChain_append] at hbetween
      exact hbetween.2.2 op (by simp) token (by simp)
    have hle : op.span.stop.offset ≤ token.span.start.offset :=
      (List.pairwise_append.mp h.ordered).2.2 op (by simp) token (List.mem_cons_self ..)
    rcases Nat.lt_or_eq_of_le hle with hlt | htouch
    · exact absurd (mem_blanks_of_blank hgap hplace hlt) hnot
    · obtain ⟨lexeme, hslice, hpos, hshows⟩ := h.lexeme op hmem
      have hne : lexeme ≠ [] := by
        rintro rfl
        obtain ⟨-, -, -, -, hstop⟩ := hslice
        exact absurd hstop (Nat.ne_of_lt hpos)
      rw [← htouch] at hplace
      obtain ⟨hkind, rfl⟩ := operator_of_getLast? (hwritable op hmem) hshows hc
        (getLast?_of_slice hslice hplace hne)
      obtain ⟨-, -, -, -, hstart⟩ := hslice
      obtain ⟨-, -, -, -, hstop⟩ := hplace
      have hstands : op.span.start.offset = place := Nat.add_right_cancel (hstart.trans hstop.symm)
      exact ⟨earlier, op, List.concat_eq_append, hkind, hstands, htouch⟩

/-- A sign that touches a number without one stands behind an operand. -/
theorem operand_in_front (h : Tiling source file (before ++ token :: behind))
    (hwritable : ∀ t ∈ before ++ token :: behind, t.word.Writable) (hunsigned : token.Unsigned)
    {place : Nat} {c : Char} (hc : c = '+' ∨ c = '-')
    (hplace : Slice source.toList place token.span.start.offset [c]) :
    (lastBefore (before ++ token :: behind ++ [endOfText file source.utf8ByteSize]) place).any
      (·.kind.endsOperand) = true := by
  obtain ⟨earlier, op, rfl, hop, rfl, htouch⟩ := operator_in_front h hwritable hc hplace
  rw [List.append_assoc earlier, List.singleton_append] at h ⊢
  have hafter := h.signs.behind.2.1 hop token rfl hunsigned htouch
  rw [lastBefore_start h]
  simpa [Option.any_map, Function.comp_def] using hafter

/-- A number with a sign does not stand behind an operand. -/
theorem no_operand_in_front (h : Tiling source file (before ++ token :: behind))
    (hsigned : Word.Signed token.word) :
    (lastBefore (before ++ token :: behind ++ [endOfText file source.utf8ByteSize])
      token.span.start.offset).any (·.kind.endsOperand) = false := by
  have hafter := h.signs.behind.1 hsigned
  rw [lastBefore_start h]
  simpa [Option.any_map, Function.comp_def] using hafter

/-- What is in front of a number decides whether a sign that touches it belongs to it. -/
theorem signBelongs_of_tiling {sign rest : List Char}
    (h : Tiling source file (before ++ token :: behind))
    (hwritable : ∀ t ∈ before ++ token :: behind, t.word.Writable)
    (hkind : token.kind = .integer ∨ token.kind = .decimal) (hsign : sign ∈ signs)
    (hdigit : ∃ c ∈ rest.head?, c.isDigit = true)
    (hslice : Slice source.toList token.span.start.offset token.span.stop.offset (sign ++ rest))
    (hvalue : token.value.toList = sign ++ rest) :
    SignBelongs source.toList (before ++ token :: behind ++ [endOfText file source.utf8ByteSize])
      token.span.start.offset sign := by
  have hsigned : Word.Signed token.word ↔
      ∃ e ∈ (sign ++ rest).head?, e = '+' ∨ e = '-' := by
    rw [← hvalue]
    exact and_iff_right hkind
  intro place c hc hplace
  by_cases hempty : sign = []
  · subst hempty
    have hunsigned : token.Unsigned := by
      refine ⟨hkind, fun hword => ?_⟩
      obtain ⟨e, he, hsigned⟩ := hsigned.mp hword
      obtain ⟨d, hd, hdigit⟩ := hdigit
      obtain rfl := Option.some.inj (he.symm.trans hd)
      rcases hsigned with rfl | rfl <;> cases hdigit
    refine iff_of_false (List.cons_ne_nil c []).symm ?_
    rw [operand_in_front h hwritable hunsigned hc hplace]
    exact Bool.noConfusion
  · obtain ⟨e, he, rfl⟩ : ∃ e, (e = '+' ∨ e = '-') ∧ sign = [e] := by
      simp only [signs, List.mem_cons, List.not_mem_nil, or_false] at hsign
      rcases hsign with rfl | rfl | rfl
      · exact absurd rfl hempty
      · exact ⟨_, .inl rfl, rfl⟩
      · exact ⟨_, .inr rfl, rfl⟩
    obtain ⟨rfl, rfl⟩ := eq_of_sign he hc hslice hplace
    exact iff_of_true rfl (no_operand_in_front h (hsigned.mpr ⟨e, rfl, he⟩))

end

/-! ## Whole texts -/

section

variable {source file : String} {tokens : List Token}

/-- The tokens of a text lie in it and are such as can be written. -/
theorem written_of_scanText (h : scanText source file = .ok tokens) :
    ∃ found, tokens = found ++ [endOfText file source.utf8ByteSize] ∧ Tiling source file found ∧
      ∀ token ∈ found, token.word.Writable := by
  obtain ⟨found, rfl, htiling⟩ := tiling_of_scanText h
  have htokens : tokenize source file =
      .ok ((found ++ [endOfText file source.utf8ByteSize]).map stored) := by
    rw [tokenize, h]
  obtain ⟨words, hwords, hafter⟩ := writableAfter_of_tokenize htokens
  rw [map_word_stored, List.map_append] at hwords
  obtain rfl := List.append_inj_left' hwords rfl
  exact ⟨found, rfl, htiling, fun token htoken =>
    Word.writable_of_writableAfter hafter _ (List.mem_map_of_mem htoken)⟩

theorem byteLength_of_slice {text inner : List Char} {start stop : Nat}
    (h : Slice text start stop inner) : byteLength inner ≤ byteLength text := by
  obtain ⟨front, back, rfl, -, -⟩ := h
  simp only [byteLength_append]
  omega

/-- Every constant among the tokens of a text denotes what its lexeme denotes. -/
theorem Tiling.denotes {found : List Token} (h : Tiling source file found)
    (hsize : source.utf8ByteSize ≤ sizeLimit) {token : Token} (htoken : token ∈ found)
    (hwritable : token.word.Writable) (hkind : token.kind ∈ constants) :
    ∃ sign rest value,
      Slice source.toList token.span.start.offset token.span.stop.offset (sign ++ rest) ∧
        Shows token.kind token.value (sign ++ rest) ∧ token.literal = .ok value ∧
          Denotes sign rest value := by
  obtain ⟨lexeme, hslice, -, hshows⟩ := h.lexeme token htoken
  have hlength : byteLength lexeme ≤ sizeLimit := by
    refine Nat.le_trans (byteLength_of_slice hslice) ?_
    rwa [← utf8ByteSize_ofList, String.ofList_toList]
  obtain ⟨sign, rest, value, rfl, hliteral, hdenotes⟩ :=
    denotes_of_shows hkind hwritable hshows hlength
  exact ⟨sign, rest, value, hslice, hshows, hliteral, hdenotes⟩

/-- No token of a text is a constant by its kind that denotes none. -/
theorem flaw?_of_tokenize (hsize : source.utf8ByteSize ≤ sizeLimit)
    (h : tokenize source file = .ok tokens) : ∀ token ∈ tokens, token.flaw? = none := by
  obtain ⟨exact, hexact, rfl⟩ := scanText_of_tokenize h
  obtain ⟨found, rfl, htiling, hwritable⟩ := written_of_scanText hexact
  refine List.forall_mem_map.mpr fun token htoken => ?_
  rcases List.mem_append.mp htoken with htoken | htoken
  · by_cases hkind : token.kind ∈ constants
    · obtain ⟨-, -, value, -, -, hliteral, -⟩ :=
        htiling.denotes hsize htoken (hwritable token htoken) hkind
      exact flaw?_of_literal (literal_of_word_eq token.word_stored.symm hliteral)
    · refine if_neg fun hmem => hkind ?_
      simp only [constants, List.mem_cons, List.not_mem_nil, or_false] at hmem ⊢
      tauto
  · obtain rfl := List.mem_singleton.mp htoken
    rfl

end

end Token

/-- A literal is what its place in a text denotes; if it is a number, the sign that touches its
digits, if there is one, is where it belongs. -/
def Literal.StandsAt (text : List Char) (tokens : List Token) (value : Literal) (span : Span) :
    Prop :=
  ∃ sign rest, Text.Slice text span.start.offset span.stop.offset (sign ++ rest) ∧
    Text.Denotes sign rest value ∧
      (value.IsNumber → Token.SignBelongs text tokens span.start.offset sign)

namespace Program

variable {source file : String} {tokens : List Token}

/-- A literal of a program was read from one token, where it stands. -/
theorem HasHulls.exists_token {p : Program} (h : p.HasHulls tokens file) {value : Literal}
    {ty : Option Ty} {span : Span} (hp : p.Has (.expr (.literal value ty span))) :
    ∃ token ∈ tokens, token.literal = .ok value ∧ span = token.span := by
  obtain ⟨own, hown, hread, hhull⟩ := h.node _ hp
  change ReadFrom [.constant value] own at hread
  cases hread with
  | @token _ token _ _ hadmits hnone =>
    cases hnone
    exact ⟨token, hown.subset (List.mem_singleton_self token), hadmits,
      hhull.unique (.singleton token)⟩

/-- A text that cannot be read as a program has no malformed number and no character left out. -/
theorem fault_of_parse {file' : String} {d : Diagnostic}
    (hsize : source.utf8ByteSize ≤ Text.sizeLimit)
    (h : Token.tokenize source file = .ok tokens) (hd : parse tokens file' = .error d) :
    d.fault ≠ .unterminatedLiteral ∧
      ∀ text, d.fault ≠ .unexpectedTokenDetailed text "malformed number" := by
  have hflaw := Token.flaw?_of_tokenize hsize h
  obtain ⟨exact, hexact, rfl⟩ := Token.scanText_of_tokenize h
  obtain ⟨found, rfl, -, -⟩ := Token.written_of_scanText hexact
  have hclose : (Token.endOfText file source.utf8ByteSize).stored.kind = .eof := rfl
  rw [List.map_append, List.map_singleton, ← Cursor.upcoming_ofTokens hclose file'] at hflaw
  rw [List.map_append, List.map_singleton] at hd
  obtain ⟨token, -, message, rfl, hwords⟩ := unexpected_of_parse hflaw hd
  cases message with
  | none => exact ⟨nofun, fun _ => nofun⟩
  | some word =>
    refine ⟨nofun, fun text hfault => ?_⟩
    obtain ⟨-, rfl⟩ := Fault.unexpectedTokenDetailed.inj hfault
    exact absurd (hwords _ rfl) (by decide)

/-- A constant among the tokens of a text is what its place in the text denotes. -/
theorem standsAt_of_literal {token : Token} {value : Literal}
    (hsize : source.utf8ByteSize ≤ Text.sizeLimit) (h : Token.scanText source file = .ok tokens)
    (htoken : token ∈ tokens) (hliteral : token.literal = .ok value) :
    value.StandsAt source.toList tokens token.span := by
  obtain ⟨found, rfl, htiling, hwritable⟩ := Token.written_of_scanText h
  have hfound : token ∈ found := by
    rcases List.mem_append.mp htoken with hfound | hlast
    · exact hfound
    · obtain rfl := List.mem_singleton.mp hlast
      cases hliteral
  obtain ⟨sign, rest, value', hslice, hshows, hvalue, hdenotes⟩ :=
    htiling.denotes hsize hfound (hwritable token hfound) (Token.constant_of_literal hliteral)
  obtain rfl := Except.ok.inj (hvalue.symm.trans hliteral)
  refine ⟨sign, rest, hslice, hdenotes, fun hnumber => ?_⟩
  obtain ⟨hsign, hdigit⟩ := hdenotes.number hnumber
  have hkind := Token.number_of_literal hliteral hnumber
  have hlexeme : token.value.toList = sign ++ rest := by
    rcases hkind with hkind | hkind <;>
      · rw [hkind] at hshows
        exact hshows.symm
  obtain ⟨before, behind, rfl⟩ := List.append_of_mem hfound
  exact Token.signBelongs_of_tiling htiling hwritable hkind hsign hdigit hslice hlexeme

/-- The literals of a program that is read from a text are what their places in the text denote, and
a text that cannot be read as a program has no malformed number and no character left out. The
tokens are those of the text with their places as they are stored. So the span of a literal is the
place of its token as that is stored, which is the place itself in a text of less than 2^32 bytes.
-/
theorem literals_exact {file' : String} (hsize : source.utf8ByteSize ≤ Text.sizeLimit)
    (h : Token.tokenize source file = .ok tokens) :
    (∀ d, parse tokens file' = .error d → d.fault ≠ .unterminatedLiteral ∧
      ∀ text, d.fault ≠ .unexpectedTokenDetailed text "malformed number") ∧
    ∃ found, Token.scanText source file = .ok found ∧ tokens = found.map Token.stored ∧
      (source.utf8ByteSize < UInt32.size → tokens = found) ∧
      ∀ p, parse tokens file' = .ok p → ∀ value ty span,
        p.Has (.expr (.literal value ty span)) →
          ∃ token ∈ found, token.literal = .ok value ∧ span = token.stored.span ∧
            (source.utf8ByteSize < UInt32.size → span = token.span) ∧
            value.StandsAt source.toList found token.span := by
  refine ⟨fun d hd => fault_of_parse hsize h hd, ?_⟩
  obtain ⟨found, hfound, rfl⟩ := Token.scanText_of_tokenize h
  have hplaces := (Token.scanText_places source file).of_ok hfound
  refine ⟨found, hfound, rfl, fun hnarrow => Token.eq_of_scanText hnarrow h hfound, ?_⟩
  intro p hp value ty span hhas
  obtain ⟨token, htoken, hliteral, rfl⟩ := (parse_hulls hp).exists_token hhas
  obtain ⟨exact, hexact, rfl⟩ := List.mem_map.mp ((List.takeWhile_prefix _).subset htoken)
  have hexactLiteral := Token.literal_of_word_eq exact.word_stored hliteral
  refine ⟨exact, hexact, hexactLiteral, rfl,
    fun hnarrow => (hplaces exact hexact).stored_eq hnarrow, ?_⟩
  exact standsAt_of_literal hsize hfound hexact hexactLiteral

/-- A program with a number that has a sign. -/
def signedField : String := "LET n: Integer = -07;"

/-- The constant that an expression is, and where it stands, if its type is left open. -/
def constantAt? : Expr → Option (Literal × Span)
  | .literal value none span => some (value, span)
  | _ => none

theorem eq_of_constantAt? {e : Expr} {value : Literal} {span : Span}
    (h : constantAt? e = some (value, span)) : e = .literal value none span := by
  unfold constantAt? at h
  split at h <;> cases h
  rfl

theorem signedField_exact : ∃ tokens p, signedField.utf8ByteSize ≤ Text.sizeLimit ∧
    Token.tokenize signedField "shell" = .ok tokens ∧ parse tokens "shell" = .ok p ∧
    p.Has (.expr (.literal (.integer (-7)) none ⟨⟨17, "shell"⟩, ⟨20, "shell"⟩⟩)) ∧
    Literal.StandsAt signedField.toList tokens (.integer (-7))
      ⟨⟨17, "shell"⟩, ⟨20, "shell"⟩⟩ := by
  have hsize : signedField.utf8ByteSize ≤ Text.sizeLimit := by decide
  have hread : (do
      let tokens ← (Token.tokenize signedField "shell").toOption
      let p ← (Program.parse tokens "shell").toOption
      let f ← p.fields.head?
      f.value.bind constantAt?) = some (.integer (-7), ⟨⟨17, "shell"⟩, ⟨20, "shell"⟩⟩) := by
    decide +kernel
  cases htokens : Token.tokenize signedField "shell" with
  | error d =>
    rw [htokens] at hread
    cases hread
  | ok tokens =>
    rw [htokens] at hread
    change (Program.parse tokens "shell").toOption.bind _ = _ at hread
    cases hp : Program.parse tokens "shell" with
    | error d =>
      rw [hp] at hread
      cases hread
    | ok p =>
      rw [hp] at hread
      change p.fields.head?.bind _ = _ at hread
      obtain ⟨f, hf, hvalue⟩ := Option.bind_eq_some_iff.mp hread
      obtain ⟨e, he, hconstant⟩ := Option.bind_eq_some_iff.mp hvalue
      obtain rfl := eq_of_constantAt? hconstant
      have hhas : p.Has (.expr (.literal (.integer (-7)) none
          ⟨⟨17, "shell"⟩, ⟨20, "shell"⟩⟩)) := by
        refine ⟨.field f, ?_, .single ?_⟩
        · exact List.mem_append_left _ (List.mem_map_of_mem (List.mem_of_mem_head? hf))
        · simp [Node.children, he]
      obtain ⟨found, -, -, hfound, hexact⟩ := (literals_exact hsize htokens).2
      obtain rfl := hfound (by decide)
      obtain ⟨token, -, -, -, hspan, hstands⟩ := hexact p hp _ _ _ hhas
      rw [← hspan (by decide)] at hstands
      exact ⟨tokens, p, hsize, rfl, hp, hhas, hstands⟩

end Program

end TeachLang
