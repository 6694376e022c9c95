import TeachLang.Proofs.Lexical
import TeachLang.Proofs.Places

/-!
# Lexemes

A piece of a text takes some characters off its front, its **lexeme**. `piece_takes` says of every
piece that is no fault what its lexeme is, and that it does not depend on all of the text behind:
wherever the text is cut off behind the lexeme, the piece at its front is the same (`Settled`).

What a literal is takes no program to say: `Body` describes what can stand between two quotes, one
character or one backslash with the next character at a time. `rawBody` finds such bodies and no
others, and `decode` fails on them only for an escape that does not exist.

`begins` lists the ways in which a text can begin. What is said of all pieces is said of each way.
-/

namespace TeachLang

/-! ## Fronts that stay the same -/

/-- What is found in a text that goes on from `taken` is found as well if the text is cut off
somewhere behind that. -/
def Settled {α : Type} (find : List Char → α) (taken rest : List Char) : Prop :=
  ∀ text, text <+: rest → find (taken ++ text) = find (taken ++ rest)

/-- What is made of something settled is settled. -/
theorem Settled.map {α β : Type} {find : List Char → α} {find' : List Char → β}
    {taken rest : List Char} (h : Settled find taken rest) (f : α → β)
    (hfind : ∀ text, text <+: rest → find' (taken ++ text) = f (find (taken ++ text))) :
    Settled find' taken rest := by
  intro text htext
  rw [hfind text htext, hfind rest (List.prefix_refl rest), h text htext]

namespace Token

open Text

theorem head?_of_isPrefix {text rest : List Char} (h : text <+: rest) {c : Char}
    (hc : c ∈ text.head?) : c ∈ rest.head? := by
  obtain ⟨behind, rfl⟩ := h
  exact List.mem_head?_append_of_mem_head? hc

/-- A run that ends where the text does not go on with it is settled. -/
theorem settled_run {p : Char → Bool} {taken rest : List Char} (htaken : ∀ c ∈ taken, p c = true)
    (hrest : ∀ c ∈ rest.head?, p c = false) : Settled (List.takeWhile p) taken rest := by
  intro text htext
  rw [takeWhile_run htaken hrest]
  exact takeWhile_run htaken fun c hc => hrest c (head?_of_isPrefix htext hc)

/-- What stands behind a run does not go on with it. -/
theorem head?_dropWhile {p : Char → Bool} {cs : List Char} :
    ∀ c ∈ (cs.dropWhile p).head?, p c = false := by
  intro c hc
  have hhead := List.head?_dropWhile_not p cs
  rwa [hc] at hhead

theorem settled_takeWhile (p : Char → Bool) (cs : List Char) :
    Settled (List.takeWhile p) (cs.takeWhile p) (cs.dropWhile p) :=
  settled_run (fun _ hc => List.mem_takeWhile_imp hc) head?_dropWhile

/-- The point of a number and the digits behind it, if the text begins so. -/
def places : List Char → List Char
  | '.' :: cs => if cs.takeWhile Char.isDigit = [] then [] else '.' :: cs.takeWhile Char.isDigit
  | _ => []

theorem places_of_ne {c : Char} (hc : c ≠ '.') (cs : List Char) : places (c :: cs) = [] := by
  rw [places.eq_def]
  split
  · next h => exact absurd (List.cons.inj h).1 hc
  · rfl

theorem numberText_append {whole rest : List Char} (hwhole : ∀ c ∈ whole, c.isDigit = true)
    (hrest : ∀ c ∈ rest.head?, c.isDigit = false) :
    numberText (whole ++ rest) = whole ++ places rest := by
  simp only [numberText, takeWhile_run hwhole hrest, dropWhile_run hwhole hrest]
  cases rest with
  | nil => simp [places]
  | cons c rest =>
    by_cases hc : c = '.'
    · subst hc
      simp only [places]
      split <;> simp
    · rw [places_of_ne hc, List.append_nil]
      split
      · next h => exact absurd (List.cons.inj h).1 hc
      · rfl

/-- A point is not taken without a digit behind it. -/
theorem settled_places (cs : List Char) :
    ∃ rest, cs = places cs ++ rest ∧ Settled places (places cs) rest := by
  cases cs with
  | nil =>
    refine ⟨[], rfl, fun text htext => ?_⟩
    rw [List.prefix_nil.mp htext]
  | cons c cs =>
    by_cases hc : c = '.'
    · subst hc
      have hcs := List.takeWhile_append_dropWhile (p := Char.isDigit) (l := cs)
      have hsettled := settled_takeWhile Char.isDigit cs
      by_cases hnone : cs.takeWhile Char.isDigit = []
      · rw [hnone, List.nil_append] at hcs
        rw [hnone, hcs] at hsettled
        rw [places, if_pos hnone]
        refine ⟨'.' :: cs, rfl, fun text htext => ?_⟩
        obtain rfl | ⟨digits, rfl, hdigits⟩ := List.prefix_cons_iff.mp htext
        · exact (if_pos hnone).symm
        · have hshort : digits.takeWhile Char.isDigit = cs.takeWhile Char.isDigit :=
            hsettled digits hdigits
          rw [List.nil_append, List.nil_append, places, places, hshort]
      · rw [places, if_neg hnone]
        refine ⟨cs.dropWhile Char.isDigit, by rw [List.cons_append, hcs], fun text htext => ?_⟩
        rw [List.cons_append, List.cons_append, places, places, hsettled text htext]
    · rw [places_of_ne hc]
      refine ⟨c :: cs, rfl, fun text htext => ?_⟩
      obtain rfl | ⟨text, rfl, -⟩ := List.prefix_cons_iff.mp htext
      · exact (places_of_ne hc cs).symm
      · exact (places_of_ne hc text).trans (places_of_ne hc cs).symm

/-- A number ends where its digits end, or its places if it has any. -/
theorem settled_numberText (cs : List Char) :
    ∃ rest, cs = numberText cs ++ rest ∧ Settled numberText (numberText cs) rest := by
  have hwhole : ∀ c ∈ cs.takeWhile Char.isDigit, c.isDigit = true := fun _ hc =>
    List.mem_takeWhile_imp hc
  have hend : ∀ c ∈ (cs.dropWhile Char.isDigit).head?, c.isDigit = false := head?_dropWhile
  rw [← List.takeWhile_append_dropWhile (p := Char.isDigit) (l := cs)]
  generalize cs.takeWhile Char.isDigit = whole at hwhole ⊢
  generalize cs.dropWhile Char.isDigit = behind at hend ⊢
  obtain ⟨rest, hrest, hsettled⟩ := settled_places behind
  rw [numberText_append hwhole hend]
  refine ⟨rest, by rw [List.append_assoc, ← hrest], fun text htext => ?_⟩
  have hshort : places behind ++ text <+: behind := by
    nth_rewrite 2 [hrest]
    rwa [List.prefix_append_right_inj]
  rw [List.append_assoc, List.append_assoc, ← hrest, numberText_append hwhole hend,
    numberText_append hwhole fun c hc => hend c (head?_of_isPrefix hshort hc),
    hsettled text htext, ← hrest]

/-- A symbol is found because the text begins with its spelling and with no symbol tried before. -/
theorem settled_symbol? {cs : List Char} {kind : Kind} {spelling : String}
    (h : symbol? cs = some (kind, spelling)) :
    ∃ rest, cs = spelling.toList ++ rest ∧ Settled symbol? spelling.toList rest := by
  obtain ⟨before, found, behind, hsymbols, hfound, hbefore⟩ := List.findSome?_eq_some_iff.mp h
  obtain ⟨spelled, hspelled, hprefix⟩ := Option.bind_eq_some_iff.mp hfound
  split at hprefix
  · next hfront =>
    cases hprefix
    obtain ⟨rest, rfl⟩ := List.isPrefixOf_iff_prefix.mp hfront
    refine ⟨rest, rfl, fun text htext => ?_⟩
    rw [h]
    refine List.findSome?_eq_some_iff.mpr ⟨before, kind, behind, hsymbols, ?_, ?_⟩
    · rw [hspelled, Option.bind_some, if_pos (List.isPrefixOf_iff_prefix.mpr ⟨text, rfl⟩)]
    · intro other hother
      have hnone := hbefore other hother
      rw [Option.bind_eq_none_iff] at hnone ⊢
      intro s hs
      have hlong := hnone s hs
      split at hlong
      · cases hlong
      · next hnot =>
        refine if_neg fun hshort => hnot ?_
        rw [List.isPrefixOf_iff_prefix] at hshort ⊢
        exact hshort.trans ((List.prefix_append_right_inj _).mpr htext)
  · cases hprefix

/-! ## Literals -/

/-- What can stand between two quotes: characters that need no backslash, and backslashes with one
of the characters that they may take with them. -/
inductive Body (quote : Char) (escapable : Char → Prop) : List Char → Prop where
  /-- nothing -/
  | nil : Body quote escapable []
  /-- a character that stands for itself -/
  | plain {c : Char} {cs : List Char} : c ≠ quote → c ≠ '\\' → c ≠ '\n' → c ≠ '\r' →
    Body quote escapable cs → Body quote escapable (c :: cs)
  /-- a backslash and the character that it takes with it -/
  | escaped {c : Char} {cs : List Char} : escapable c → Body quote escapable cs →
    Body quote escapable ('\\' :: c :: cs)

/-- A quoted body. The quote of a character has one character in its body, or one escape. -/
inductive Quoted : Kind → List Char → List Char → Prop where
  /-- a character between single quotes -/
  | character {body : List Char} : Body '\'' (· ≠ '\n') body →
    (∃ c, body = [c] ∨ body = ['\\', c]) → Quoted .character body ('\'' :: body ++ ['\''])
  /-- a text between double quotes -/
  | string {body : List Char} : Body '"' (· ≠ '\n') body →
    Quoted .string body ('"' :: body ++ ['"'])

/-- The characters that make an escape behind a backslash. -/
def escapes : List Char := ['b', 'n', 'r', 't', '\'', '"', '\\']

theorem escape?_eq_none (c : Char) : escape? c = none ↔ c ∉ escapes := by
  constructor
  · intro h hc
    simp only [escapes, List.mem_cons, List.not_mem_nil, or_false] at hc
    rcases hc with rfl | rfl | rfl | rfl | rfl | rfl | rfl <;> cases h
  · intro h
    simp only [escapes, List.mem_cons, List.not_mem_nil, or_false, not_or] at h
    simp [escape?, h]

theorem rawBody_iff {quote : Char} (hquote : quote ≠ '\\') {cs body : List Char} :
    rawBody quote cs = some body ↔
      Body quote (· ≠ '\n') body ∧ ∃ rest, cs = body ++ quote :: rest := by
  constructor
  · intro h
    fun_induction rawBody quote cs generalizing body with
    | case1 | case2 | case5 => cases h
    | case3 c cs hc ih =>
      obtain ⟨inner, hinner, rfl⟩ := Option.map_eq_some_iff.mp h
      obtain ⟨hbody, rest, rfl⟩ := ih hinner
      exact ⟨.escaped hc hbody, rest, rfl⟩
    | case4 cs =>
      obtain rfl := Option.some.inj h
      exact ⟨.nil, cs, rfl⟩
    | case6 c cs _ hne hplain ih =>
      obtain ⟨inner, hinner, rfl⟩ := Option.map_eq_some_iff.mp h
      obtain ⟨hbody, rest, rfl⟩ := ih hinner
      simp only [not_or] at hplain
      exact ⟨.plain hne hplain.1 hplain.2.1 hplain.2.2 hbody, rest, rfl⟩
  · rintro ⟨hbody, rest, rfl⟩
    induction hbody with
    | nil => exact rawBody_quote quote hquote rest
    | @plain c cs hne hslash hline hreturn hbody ih =>
      rw [List.cons_append, rawBody, if_neg hne, if_neg (by tauto), ih]
      · rfl
      · simp [hslash]
    | @escaped c cs hline hbody ih =>
      change rawBody quote ('\\' :: c :: (cs ++ quote :: rest)) = _
      rw [rawBody, if_neg hline, ih]
      rfl

/-- A body is decoded, or the first of its escapes that does not exist is at fault. -/
theorem decode_body {quote : Char} {body : List Char} (h : Body quote (· ≠ '\n') body) :
    (∃ text, decode body = .ok text) ∨ ∃ before c after, body = before ++ '\\' :: c :: after ∧
      Body quote (· ∈ escapes) before ∧ c ∉ escapes ∧
        decode body = .error (.invalidEscape c, byteLength before) := by
  induction h with
  | nil => exact .inl ⟨[], rfl⟩
  | @plain c cs hne hslash hline hreturn _ ih =>
    rcases ih with ⟨text, htext⟩ | ⟨before, e, after, rfl, hbefore, he, herror⟩
    · exact .inl ⟨_, decode_plain hslash htext⟩
    · refine .inr ⟨c :: before, e, after, rfl, .plain hne hslash hline hreturn hbefore, he, ?_⟩
      rw [decode, herror]
      · rfl
      all_goals simp [hslash]
  | @escaped c cs _ _ ih =>
    by_cases hc : c ∈ escapes
    · obtain ⟨d, hd⟩ := Option.ne_none_iff_exists'.mp (mt (escape?_eq_none c).mp (not_not.mpr hc))
      rcases ih with ⟨text, htext⟩ | ⟨before, e, after, rfl, hbefore, he, herror⟩
      · exact .inl ⟨_, decode_escaped hd htext⟩
      · refine .inr ⟨'\\' :: c :: before, e, after, rfl, .escaped hc hbefore, he, ?_⟩
        rw [decode, hd]
        simp only [herror, byteLength_cons]
        rw [Nat.add_assoc]
        rfl
    · refine .inr ⟨[], c, cs, rfl, .nil, hc, ?_⟩
      rw [decode, (escape?_eq_none c).mpr hc]
      rfl

/-! ## Pieces -/

/-- Number of characters that a piece takes behind the first, none if it is a fault. -/
def Piece.more? : Piece → Option Nat
  | .separators more | .token _ _ more => some more
  | .fault _ _ => none

/-- What a token says of its lexeme: its value is the lexeme, or what the body of a quoted literal
denotes. -/
def Shows (kind : Kind) (value : String) (lexeme : List Char) : Prop :=
  match kind with
  | .character | .string => ∃ body, Quoted kind body lexeme ∧ decode body = .ok value.toList
  | _ => lexeme = value.toList

/-- What a piece says of its lexeme. -/
inductive Piece.Covers (lexeme : List Char) : Piece → Prop where
  /-- separators are blanks -/
  | separators {more : Nat} : (∀ c ∈ lexeme, c ∈ blanks) → Covers lexeme (.separators more)
  /-- a token shows its lexeme, which begins with no blank -/
  | token {kind : Kind} {value : String} {more : Nat} : (∀ c ∈ lexeme.head?, c ∉ blanks) →
    Shows kind value lexeme → Covers lexeme (.token kind value more)

theorem shows_plain {kind : Kind} (h : kind ≠ .character ∧ kind ≠ .string) (lexeme : List Char) :
    Shows kind (String.ofList lexeme) lexeme := by
  rw [Shows.eq_def]
  split
  · exact absurd rfl h.1
  · exact absurd rfl h.2
  · exact String.toList_ofList.symm

theorem not_quoted_of_spelling {kind : Kind} {text : String} (h : kind.spelling? = some text) :
    kind ≠ .character ∧ kind ≠ .string := by
  constructor <;> rintro rfl <;> cases h

theorem toList_ne_nil_of_spelling {kind : Kind} {text : String} (h : kind.spelling? = some text) :
    text.toList ≠ [] := by
  cases kind <;> cases h <;> simp

theorem not_quoted_ofWord (text : String) :
    Kind.ofWord text ≠ .character ∧ Kind.ofWord text ≠ .string := by
  rcases ofWord_cases text with h | ⟨h, -⟩
  · exact not_quoted_of_spelling h
  · rw [h]
    decide

/-- A piece at the front of a text takes a part of the text, says what it is, and would be the same
if the text were cut off behind it. -/
def Takes (after : Bool) (c : Char) (cs : List Char) : Prop :=
  ∃ taken rest, cs = taken ++ rest ∧ (piece after c cs).more? = some taken.length ∧
    Settled (piece after c) taken rest ∧ (piece after c cs).Covers (c :: taken)

section

variable {after : Bool} {c : Char} {cs : List Char}

/-- A piece that is made of what was found. -/
theorem takes_of_settled {α : Type} {find : List Char → α} {taken rest : List Char}
    (hcs : cs = taken ++ rest) (hfind : Settled find taken rest) (make : α → Piece)
    (hpiece : ∀ text, text <+: rest → piece after c (taken ++ text) = make (find (taken ++ text)))
    (hmore : (make (find cs)).more? = some taken.length)
    (hcovers : (make (find cs)).Covers (c :: taken)) : Takes after c cs := by
  subst hcs
  refine ⟨taken, rest, rfl, ?_, hfind.map make hpiece, ?_⟩
  · rwa [hpiece rest (List.prefix_refl rest)]
  · rwa [hpiece rest (List.prefix_refl rest)]

theorem piece_separators (hc : isSeparator c = true) (after : Bool) (cs : List Char) :
    piece after c cs = .separators (cs.takeWhile isSeparator).length := by
  rw [piece, if_pos hc]

theorem takes_separators (hc : isSeparator c = true) (after : Bool) (cs : List Char) :
    Takes after c cs := by
  refine takes_of_settled List.takeWhile_append_dropWhile.symm (settled_takeWhile isSeparator cs)
    (fun run => .separators run.length) (fun text _ => piece_separators hc after _) rfl ?_
  refine .separators (List.forall_mem_cons.mpr ⟨(isSeparator_iff c).mp hc, fun d hd => ?_⟩)
  exact (isSeparator_iff d).mp (List.mem_takeWhile_imp hd)

theorem takes_word (hc : startsWord c = true) (after : Bool) (cs : List Char) :
    Takes after c cs := by
  refine takes_of_settled List.takeWhile_append_dropWhile.symm (settled_takeWhile continuesWord cs)
    (fun run => .token (Kind.ofWord (String.ofList (c :: run))) (String.ofList (c :: run))
      run.length) (fun text _ => piece_word hc after _) rfl ?_
  refine .token ?_ (shows_plain (not_quoted_ofWord _) _)
  rintro d ⟨rfl⟩
  exact notMem_blanks rfl hc

theorem takes_number (h : c.isDigit = true ∨
    (c = '+' ∨ c = '-') ∧ cs.head?.any Char.isDigit = true ∧ ¬ after = true) :
    Takes after c cs := by
  obtain ⟨rest, hcs, hsettled⟩ := settled_numberText cs
  have hpiece : ∀ text, text <+: rest →
      piece after c (numberText cs ++ text) = number c (numberText (numberText cs ++ text)) := by
    intro text _
    refine piece_number (h.imp_right ?_)
    rintro ⟨hsign, hdigit, hafter⟩
    refine ⟨hsign, ?_, hafter⟩
    -- the number has the digit that it began with
    obtain ⟨d, hd, hdigit⟩ := (Option.any_eq_true _ _).mp hdigit
    obtain ⟨ds, rfl⟩ := List.head?_eq_some_iff.mp hd
    obtain ⟨es, hes⟩ := head?_numberText hdigit ds
    rw [hes]
    exact hdigit
  refine takes_of_settled hcs hsettled (number c) hpiece rfl (.token ?_ (shows_plain ?_ _))
  · rintro d ⟨rfl⟩
    rcases h with hdigit | ⟨rfl | rfl, -⟩
    · exact notMem_blanks rfl hdigit
    · decide
    · decide
  · split <;> decide

/-- A literal ends at its second quote, whatever stands behind it. -/
theorem takes_quoted {quote : Char} {kind : Kind} {body text : List Char}
    (hpiece : ∀ rest, piece after quote (body ++ quote :: rest) = quotedLiteral kind body)
    (hdecode : decode body = .ok text) (hquoted : Quoted kind body (quote :: body ++ [quote]))
    (rest : List Char) : Takes after quote (body ++ quote :: rest) := by
  have htoken : quotedLiteral kind body =
      .token kind (String.ofList text) (body.length + 1) := by
    rw [quotedLiteral, hdecode]
  have hshows : Shows kind (String.ofList text) (quote :: body ++ [quote]) := by
    rw [← String.toList_ofList (l := text)] at hdecode
    cases hquoted with
    | character hbody hone => exact ⟨body, .character hbody hone, hdecode⟩
    | string hbody => exact ⟨body, .string hbody, hdecode⟩
  refine ⟨body ++ [quote], rest, by simp, ?_, fun text _ => ?_, ?_⟩
  · rw [hpiece, htoken, List.length_append]
    rfl
  · rw [List.append_assoc, List.append_assoc]
    exact (hpiece text).trans (hpiece rest).symm
  · rw [hpiece, htoken]
    refine .token ?_ hshows
    rintro d ⟨rfl⟩
    cases hquoted <;> decide

/-- Whether a text begins with what only a symbol can begin with. -/
structure MaySymbol (after : Bool) (c : Char) (cs : List Char) : Prop where
  /-- it begins with no blank -/
  separator : isSeparator c = false
  /-- it begins with no name -/
  word : startsWord c = false
  /-- it begins with no number -/
  number : ¬ (c.isDigit = true ∨
    (c = '+' ∨ c = '-') ∧ cs.head?.any Char.isDigit = true ∧ ¬ after = true)
  /-- it begins with no quote -/
  quote : c ≠ '\'' ∧ c ≠ '"'

theorem piece_symbol (h : MaySymbol after c cs) : piece after c cs =
    (symbol? (c :: cs)).elim (.fault (.unrecognisedToken c.toString) 0) fun found =>
      .token found.1 found.2 (found.2.length - 1) := by
  have hnumber := not_or.mp h.number
  rw [piece, if_neg (Bool.eq_false_iff.mp h.separator), if_neg (Bool.eq_false_iff.mp h.word),
    if_neg hnumber.2, if_neg hnumber.1, if_neg h.quote.1, if_neg h.quote.2]
  cases symbol? (c :: cs) <;> rfl

theorem MaySymbol.of_isPrefix (h : MaySymbol after c cs) {text : List Char} (htext : text <+: cs) :
    MaySymbol after c text := by
  refine ⟨h.separator, h.word, fun hnumber => h.number (hnumber.imp_right ?_), h.quote⟩
  rintro ⟨hsign, hdigit, hafter⟩
  obtain ⟨d, hd, hdigit⟩ := (Option.any_eq_true _ _).mp hdigit
  exact ⟨hsign, (Option.any_eq_true _ _).mpr ⟨d, head?_of_isPrefix htext hd, hdigit⟩, hafter⟩

theorem takes_symbol (h : MaySymbol after c cs) {kind : Kind} {spelling : String}
    (hsymbol : symbol? (c :: cs) = some (kind, spelling)) : Takes after c cs := by
  have hspelling := spelling_of_symbol? hsymbol
  obtain ⟨rest, hcs, hsettled⟩ := settled_symbol? hsymbol
  obtain ⟨taken, htaken⟩ : ∃ taken, spelling.toList = c :: taken := by
    cases hlist : spelling.toList with
    | nil => exact absurd hlist (toList_ne_nil_of_spelling hspelling)
    | cons d taken =>
      rw [hlist] at hcs
      exact ⟨taken, by rw [(List.cons.inj hcs).1]⟩
  rw [htaken, List.cons_append] at hcs
  obtain rfl := (List.cons.inj hcs).2
  have hlength : spelling.length - 1 = taken.length := by
    rw [← String.length_toList, htaken]
    rfl
  have hpiece : ∀ text, text <+: rest →
      piece after c (taken ++ text) = .token kind spelling taken.length := by
    intro text htext
    have hmay := h.of_isPrefix ((List.prefix_append_right_inj taken).mpr htext)
    have hfound : symbol? (c :: (taken ++ text)) = some (kind, spelling) := by
      rw [← hsymbol, ← List.cons_append, ← List.cons_append, ← htaken]
      exact hsettled text htext
    rw [piece_symbol hmay, hfound, Option.elim_some, ← hlength]
  have hwhole := hpiece rest (List.prefix_refl rest)
  refine ⟨taken, rest, rfl, by rw [hwhole]; rfl, ?_, ?_⟩
  · intro text htext
    rw [hpiece text htext, hwhole]
  · rw [hwhole, ← htaken]
    refine .token ?_ ?_
    · rw [htaken]
      rintro d ⟨rfl⟩ hblank
      exact Bool.eq_false_iff.mp h.separator ((isSeparator_iff c).mpr hblank)
    · have hshows := shows_plain (not_quoted_of_spelling hspelling) spelling.toList
      rwa [String.ofList_toList] at hshows

/-- A text that begins with a quote begins with a literal or is at fault there. -/
theorem piece_single {body : List Char} (h : Body '\'' (· ≠ '\n') body) (after : Bool)
    (rest : List Char) : piece after '\'' (body ++ '\'' :: rest) =
      if isSingle body then quotedLiteral .character body else .fault .unterminatedLiteral 0 := by
  rw [(piece_quote after _).1, (rawBody_iff (by decide)).mpr ⟨h, rest, rfl⟩]

theorem piece_double {body : List Char} (h : Body '"' (· ≠ '\n') body) (after : Bool)
    (rest : List Char) : piece after '"' (body ++ '"' :: rest) = quotedLiteral .string body := by
  rw [(piece_quote after _).2, (rawBody_iff (by decide)).mpr ⟨h, rest, rfl⟩]

theorem isSingle_iff {body : List Char} :
    isSingle body = true ↔ ∃ c, body = [c] ∨ body = ['\\', c] := by
  constructor
  · intro h
    fun_cases isSingle body with
    | case1 c => exact ⟨c, .inl rfl⟩
    | case2 c => exact ⟨c, .inr rfl⟩
    | case3 => simp_all [isSingle]
  · rintro ⟨c, rfl | rfl⟩ <;> rfl

/-- No literal stands at the front of a text. -/
def NoLiteral (text : List Char) : Prop :=
  ∀ kind body lexeme rest, Quoted kind body lexeme → text ≠ lexeme ++ rest

theorem rawBody_of_quoted {kind : Kind} {body lexeme rest : List Char}
    (h : Quoted kind body lexeme) (htext : c :: cs = lexeme ++ rest) :
    (c = '\'' → rawBody '\'' cs = some body ∧ isSingle body = true) ∧
      (c = '"' → rawBody '"' cs = some body) := by
  cases h with
  | character hbody hone =>
    simp only [List.cons_append, List.append_assoc, List.cons.injEq] at htext
    obtain ⟨rfl, rfl⟩ := htext
    exact ⟨fun _ => ⟨(rawBody_iff (by decide)).mpr ⟨hbody, rest, rfl⟩, isSingle_iff.mpr hone⟩,
      fun h => absurd h (by decide)⟩
  | string hbody =>
    simp only [List.cons_append, List.append_assoc, List.cons.injEq] at htext
    obtain ⟨rfl, rfl⟩ := htext
    exact ⟨fun h => absurd h (by decide),
      fun _ => (rawBody_iff (by decide)).mpr ⟨hbody, rest, rfl⟩⟩

/-- How a text begins, which decides what its first piece is. -/
inductive Begins (after : Bool) : Char → List Char → Prop where
  /-- with a blank -/
  | separator {c : Char} {cs : List Char} : isSeparator c = true → Begins after c cs
  /-- with a name or a reserved word -/
  | word {c : Char} {cs : List Char} : startsWord c = true → Begins after c cs
  /-- with a number -/
  | number {c : Char} {cs : List Char} : (c.isDigit = true ∨
    (c = '+' ∨ c = '-') ∧ cs.head?.any Char.isDigit = true ∧ ¬ after = true) → Begins after c cs
  /-- with a literal, if its escapes exist -/
  | literal {kind : Kind} {quote : Char} {body rest : List Char} : quote.utf8Size = 1 →
    Body quote (· ≠ '\n') body → Quoted kind body (quote :: body ++ [quote]) →
    (∀ rest, piece after quote (body ++ quote :: rest) = quotedLiteral kind body) →
    Begins after quote (body ++ quote :: rest)
  /-- with a quote that opens no literal -/
  | unclosed {quote : Char} {cs : List Char} : quote = '\'' ∨ quote = '"' →
    NoLiteral (quote :: cs) → piece after quote cs = .fault .unterminatedLiteral 0 →
    Begins after quote cs
  /-- with a symbol or with what begins nothing -/
  | symbol {c : Char} {cs : List Char} : MaySymbol after c cs → Begins after c cs

theorem begins_single (after : Bool) (cs : List Char) : Begins after '\'' cs := by
  cases hraw : rawBody '\'' cs with
  | none =>
    refine .unclosed (.inl rfl) (fun kind body lexeme rest hquoted htext => ?_) ?_
    · rw [((rawBody_of_quoted hquoted htext).1 rfl).1] at hraw
      cases hraw
    · rw [(piece_quote after cs).1, hraw]
  | some body =>
    obtain ⟨hbody, rest, rfl⟩ := (rawBody_iff (by decide)).mp hraw
    by_cases hone : isSingle body = true
    · refine .literal rfl hbody (.character hbody (isSingle_iff.mp hone)) fun rest => ?_
      rw [piece_single hbody, if_pos hone]
    · refine .unclosed (.inl rfl) (fun kind inner lexeme rest hquoted htext => ?_) ?_
      · obtain ⟨hinner, hsingle⟩ := (rawBody_of_quoted hquoted htext).1 rfl
        obtain rfl := Option.some.inj (hraw.symm.trans hinner)
        exact hone hsingle
      · rw [piece_single hbody, if_neg hone]

theorem begins_double (after : Bool) (cs : List Char) : Begins after '"' cs := by
  cases hraw : rawBody '"' cs with
  | none =>
    refine .unclosed (.inr rfl) (fun kind body lexeme rest hquoted htext => ?_) ?_
    · rw [(rawBody_of_quoted hquoted htext).2 rfl] at hraw
      cases hraw
    · rw [(piece_quote after cs).2, hraw]
  | some body =>
    obtain ⟨hbody, rest, rfl⟩ := (rawBody_iff (by decide)).mp hraw
    exact .literal rfl hbody (.string hbody) (piece_double hbody after)

/-- There is no other way for a text to begin. -/
theorem begins (after : Bool) (c : Char) (cs : List Char) : Begins after c cs := by
  by_cases hseparator : isSeparator c = true
  · exact .separator hseparator
  by_cases hword : startsWord c = true
  · exact .word hword
  by_cases hnumber : c.isDigit = true ∨
      (c = '+' ∨ c = '-') ∧ cs.head?.any Char.isDigit = true ∧ ¬ after = true
  · exact .number hnumber
  by_cases hsingle : c = '\''
  · rw [hsingle]
    exact begins_single after cs
  by_cases hdouble : c = '"'
  · rw [hdouble]
    exact begins_double after cs
  exact .symbol ⟨Bool.eq_false_iff.mpr hseparator, Bool.eq_false_iff.mpr hword, hnumber, hsingle,
    hdouble⟩

theorem exists_decode {kind : Kind} {body : List Char}
    (h : (quotedLiteral kind body).more?.isSome = true) : ∃ text, decode body = .ok text := by
  rw [quotedLiteral] at h
  split at h
  · next text htext => exact ⟨text, htext⟩
  · cases h

/-- Every piece that is no fault takes its lexeme. -/
theorem piece_takes (h : (piece after c cs).more?.isSome = true) : Takes after c cs := by
  cases begins after c cs with
  | separator hc => exact takes_separators hc after cs
  | word hc => exact takes_word hc after cs
  | number hnumber => exact takes_number hnumber
  | literal _ _ hquoted hpiece =>
    rw [hpiece] at h
    obtain ⟨text, hdecode⟩ := exists_decode h
    exact takes_quoted hpiece hdecode hquoted _
  | unclosed _ _ hpiece =>
    rw [hpiece] at h
    cases h
  | symbol hmay =>
    cases hsymbol : symbol? (c :: cs) with
    | none =>
      rw [piece_symbol hmay, hsymbol] at h
      cases h
    | some found => exact takes_symbol hmay hsymbol

/-- A piece that is no fault is the same wherever the text is cut off behind its lexeme. -/
theorem piece_cut {p : Piece} {more : Nat} (h : piece after c cs = p)
    (hmore : p.more? = some more) :
    ∃ taken rest, cs = taken ++ rest ∧ more = taken.length ∧ p.Covers (c :: taken) ∧
      ∀ front back, rest = front ++ back → piece after c (taken ++ front) = p := by
  subst h
  obtain ⟨taken, rest, hcs, htaken, hsettled, hcovers⟩ := piece_takes (Option.isSome_of_mem hmore)
  refine ⟨taken, rest, hcs, Option.some.inj (hmore.symm.trans htaken), hcovers, ?_⟩
  rintro front back rfl
  rw [hsettled front (List.prefix_append front back), ← hcs]

end

end Token

end TeachLang
