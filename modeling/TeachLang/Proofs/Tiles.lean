import TeachLang.Proofs.Lexemes

/-!
# Tiles

The tokens of a text lie in it side by side, in the order of the text: each covers its lexeme, and
what is between them, before the first and behind the last are blanks. So no byte of a text is read
twice or lost, and no character is cut apart. `tokenize_tiles` says so of every text that can be
read, and of every text that its reading goes on by at least one byte at a time.

The lexemes and blanks are first laid out one after the other (`Tiled`), in which the sums of their
lengths are the offsets of the tokens; the spans are then compared along this layout.
-/

namespace TeachLang

open Text (blanks byteLength)

/-! ## Parts of a text -/

namespace Text

/-- The characters of a text between two offsets. -/
def Slice (text : List Char) (start stop : Nat) (inner : List Char) : Prop :=
  ∃ front back, text = front ++ inner ++ back ∧ byteLength front = start ∧
    start + byteLength inner = stop

/-- There is nothing but blanks between two offsets. -/
def Blank (text : List Char) (start stop : Nat) : Prop :=
  ∃ gap, Slice text start stop gap ∧ ∀ c ∈ gap, c ∈ blanks

end Text

namespace Token

/-! ## Laying out a text -/

/-- A text that begins at an offset behind a token of the kind `previous`, if there is one, and is
read to its end: there are blanks and lexemes in turn. -/
inductive Tiled (file : String) : Nat → Option Kind → List Char → List Token → Nat → Prop where
  /-- blanks are left -/
  | finish {offset : Nat} {previous : Option Kind} {gap : List Char} : (∀ c ∈ gap, c ∈ blanks) →
    Tiled file offset previous gap [] (offset + byteLength gap)
  /-- blanks and the lexeme of a token stand in front -/
  | token {offset : Nat} {previous : Option Kind} {gap : List Char} {c : Char}
    {taken rest : List Char} {kind : Kind} {value : String} {tokens : List Token} {length : Nat} :
    (∀ c ∈ gap, c ∈ blanks) →
    piece (previous.any Kind.endsOperand) c (taken ++ rest) = .token kind value taken.length →
    Shows kind value (c :: taken) →
    Tiled file (offset + byteLength gap + byteLength (c :: taken)) (some kind) rest tokens length →
    Tiled file offset previous (gap ++ ((c :: taken) ++ rest))
      (⟨kind, value, ⟨⟨offset + byteLength gap, file⟩,
        ⟨offset + byteLength gap + byteLength (c :: taken), file⟩⟩⟩ :: tokens) length

variable {file : String} {offset length : Nat} {previous : Option Kind} {cs : List Char}
  {tokens : List Token}

theorem Tiled.behind_blanks {gap : List Char} (hgap : ∀ c ∈ gap, c ∈ blanks)
    (h : Tiled file (offset + byteLength gap) previous cs tokens length) :
    Tiled file offset previous (gap ++ cs) tokens length := by
  generalize hstart : offset + byteLength gap = start at h
  cases h with
  | @finish _ _ inner hinner =>
    rw [← hstart, Nat.add_assoc, ← Text.byteLength_append]
    exact .finish (List.forall_mem_append.mpr ⟨hgap, hinner⟩)
  | @token _ _ inner c taken rest _ _ _ _ hinner hpiece hshows hrest =>
    have hboth : offset + byteLength (gap ++ inner) = start + byteLength inner := by
      rw [Text.byteLength_append, ← hstart, Nat.add_assoc]
    rw [← List.append_assoc, ← hboth]
    rw [← hboth] at hrest
    exact .token (List.forall_mem_append.mpr ⟨hgap, hinner⟩) hpiece hshows hrest

/-- What the reading of a whole text finds is laid out in it. -/
theorem scan_tiled (file : String) (offset : Nat) (previous : Option Kind) (cs : List Char)
    {length : Nat} (h : (scan file offset previous cs).finish = .ok length) :
    Tiled file offset previous cs (scan file offset previous cs).tokens length := by
  fun_induction scan file offset previous cs with
  | case1 offset previous =>
    obtain rfl := Except.ok.inj h
    exact .finish (List.forall_mem_nil _)
  | case2 offset previous c cs more hpiece ih =>
    obtain ⟨taken, rest, rfl, rfl, hcovers, -⟩ := piece_cut hpiece rfl
    simp only [List.take_left, List.drop_left] at h ih ⊢
    cases hcovers with
    | separators hblanks => exact (ih h).behind_blanks hblanks
  | case3 offset previous c cs kind value more hpiece stop scanned ih =>
    obtain ⟨taken, rest, rfl, rfl, hcovers, -⟩ := piece_cut hpiece rfl
    simp only [List.take_left, List.drop_left, stop, scanned] at h ih ⊢
    cases hcovers with
    | token _ hshows =>
      exact @Tiled.token file offset previous [] _ _ _ _ _ _ _ (List.forall_mem_nil _) hpiece
        hshows (ih h)
  | case4 => cases h

/-! ## Where the tokens are -/

/-- Tokens show parts of the text where they stand. -/
theorem Tiled.slice (h : Tiled file offset previous cs tokens length) {text : List Char} :
    ∀ front, text = front ++ cs → byteLength front = offset → ∀ token ∈ tokens, ∃ lexeme,
      Text.Slice text token.span.start.offset token.span.stop.offset lexeme ∧ lexeme ≠ [] ∧
        Shows token.kind token.value lexeme := by
  induction h with
  | finish => exact fun _ _ _ _ h => nomatch h
  | @token offset previous gap c taken rest kind value tokens length hgap hpiece hshows hrest ih =>
    intro front htext hoffset token htoken
    rcases List.mem_cons.mp htoken with rfl | htoken
    · refine ⟨c :: taken, ⟨front ++ gap, rest, ?_, ?_, rfl⟩, List.cons_ne_nil _ _, hshows⟩
      · simp [htext]
      · simp [hoffset]
    · refine ih (front ++ gap ++ (c :: taken)) ?_ ?_ token htoken
      · simp [htext]
      · simp only [Text.byteLength_append, hoffset]

/-- Tokens do not begin before the text that they were read from. -/
theorem Tiled.start_le (h : Tiled file offset previous cs tokens length) :
    ∀ token ∈ tokens, offset ≤ token.span.start.offset := by
  induction h with
  | finish => exact List.forall_mem_nil _
  | token _ _ _ _ ih =>
    refine List.forall_mem_cons.mpr ⟨Nat.le_add_right _ _, fun token htoken => ?_⟩
    have hrest := ih token htoken
    omega

/-- Each token ends before those behind it begin. -/
theorem Tiled.pairwise (h : Tiled file offset previous cs tokens length) :
    tokens.Pairwise fun a b => a.span.stop.offset ≤ b.span.start.offset := by
  induction h with
  | finish => exact .nil
  | token _ _ _ hrest ih => exact .cons hrest.start_le ih

/-- There is nothing but blanks between tokens. -/
theorem Tiled.blank (h : Tiled file offset previous cs tokens length) {text : List Char} :
    ∀ front, text = front ++ cs → byteLength front = offset →
      (∀ token ∈ (tokens ++ [endOfText file length]).head?,
        Text.Blank text offset token.span.start.offset) ∧
      (tokens ++ [endOfText file length]).IsChain fun a b =>
        Text.Blank text a.span.stop.offset b.span.start.offset := by
  induction h with
  | @finish offset previous gap hgap =>
    intro front htext hoffset
    refine ⟨?_, .singleton _⟩
    rintro token ⟨rfl⟩
    exact ⟨gap, ⟨front, [], by simp [htext], hoffset, rfl⟩, hgap⟩
  | @token offset previous gap c taken rest kind value tokens length hgap hpiece hshows hrest ih =>
    intro front htext hoffset
    obtain ⟨hfirst, hchain⟩ := ih (front ++ gap ++ (c :: taken)) (by simp [htext])
      (by simp only [Text.byteLength_append, hoffset])
    refine ⟨?_, ?_⟩
    · rintro token ⟨rfl⟩
      exact ⟨gap, ⟨front, c :: taken ++ rest, by simp [htext], hoffset, rfl⟩, hgap⟩
    · rw [List.cons_append, List.isChain_cons]
      exact ⟨hfirst, hchain⟩

theorem Tiled.length_eq (h : Tiled file offset previous cs tokens length) :
    length = offset + byteLength cs := by
  induction h with
  | finish => rfl
  | token _ _ _ _ ih =>
    rw [ih]
    simp only [Text.byteLength_append]
    omega

/-! ## Signs -/

/-- Whether a token is a number that begins with no sign. -/
def Unsigned (token : Token) : Prop :=
  (token.kind = .integer ∨ token.kind = .decimal) ∧ ¬ Word.Signed token.word

/-- Whether signs are where they belong in a list of tokens, behind a token of the kind `previous`
if there is one: a number has a sign only if no operand ends in front of it, and a sign that touches
a number without one is an operator only if an operand ends in front of it. -/
def SignsFit (previous : Option Kind) : List Token → Prop
  | [] => True
  | token :: tokens =>
    (Word.Signed token.word → previous.any Kind.endsOperand = false) ∧
    ((token.kind = .plus ∨ token.kind = .dash) → (∀ number ∈ tokens.head?, number.Unsigned →
      token.span.stop.offset = number.span.start.offset →
        previous.any Kind.endsOperand = true)) ∧
    SignsFit (some token.kind) tokens

/-- Every sign in front of a digit is one of a number unless an operand ends in front of it. -/
theorem after_of_operator {after : Bool} {c : Char} {cs : List Char} {kind : Kind} {value : String}
    {more : Nat} (h : piece after c cs = .token kind value more)
    (hkind : kind = .plus ∨ kind = .dash)
    (hc : c = '+' ∨ c = '-') (hdigit : cs.head?.any Char.isDigit = true) : after = true := by
  by_contra hafter
  rw [piece_number (.inr ⟨hc, hdigit, hafter⟩)] at h
  obtain ⟨rfl, -⟩ := number_token h
  split at hkind <;> simp at hkind

/-- An operator that is a sign is nothing but the sign. -/
theorem lexeme_of_operator {after : Bool} {c : Char} {cs taken : List Char} {kind : Kind}
    {value : String} {more : Nat} (h : piece after c cs = .token kind value more)
    (hshows : Shows kind value (c :: taken)) (hkind : kind = .plus ∨ kind = .dash) :
    (c = '+' ∨ c = '-') ∧ taken = [] := by
  have hwritable := (writableAt_of_piece h).writable
  rcases hkind with rfl | rfl
  · obtain rfl := Option.some.inj hwritable
    obtain ⟨rfl, rfl⟩ := List.cons.inj hshows
    exact ⟨.inl rfl, rfl⟩
  · obtain rfl := Option.some.inj hwritable
    obtain ⟨rfl, rfl⟩ := List.cons.inj hshows
    exact ⟨.inr rfl, rfl⟩

/-- A number without a sign begins with a digit. -/
theorem head_isDigit {w : Word} (h : w.Writable) (hkind : w.1 = .integer ∨ w.1 = .decimal)
    (hsigned : ¬ w.Signed) : ∃ c ∈ w.2.toList.head?, c.isDigit = true := by
  obtain ⟨kind, value⟩ := w
  have hnone : ∀ {sign tail : List Char}, sign ∈ Text.signs → value = String.ofList (sign ++ tail) →
      value.toList = tail := by
    rintro sign tail hsign rfl
    by_cases hempty : sign = []
    · rw [hempty, String.toList_ofList, List.nil_append]
    · exact absurd (signed_of_sign hsign hempty hkind) hsigned
  rcases hkind with rfl | rfl
  · obtain ⟨sign, hsign, digits, hdigits, hvalue⟩ := h
    obtain ⟨c, hc, hdigit⟩ := hdigits.exists_head? []
    refine ⟨c, ?_, hdigit⟩
    rwa [hnone hsign hvalue, ← List.append_nil digits]
  · obtain ⟨sign, hsign, digits, decimals, hdigits, -, hvalue⟩ := h
    obtain ⟨c, hc, hdigit⟩ := hdigits.exists_head? ('.' :: decimals)
    refine ⟨c, ?_, hdigit⟩
    rwa [hnone hsign hvalue]

theorem Tiled.signsFit (h : Tiled file offset previous cs tokens length) :
    SignsFit previous tokens := by
  induction h with
  | finish => trivial
  | @token offset previous gap c taken rest kind value tokens length hgap hpiece hshows hrest ih =>
    refine ⟨fun hsigned => ?_, fun hkind number hnumber hunsigned htouch => ?_, ih⟩
    · refine Bool.eq_false_iff.mpr fun hafter => ?_
      exact (writableAt_of_piece hpiece).sign ⟨hafter, hsigned⟩
    · obtain ⟨hsign, rfl⟩ := lexeme_of_operator hpiece hshows hkind
      generalize offset + byteLength gap + byteLength [c] = start at hrest htouch
      cases hrest with
      | finish => cases hnumber
      | @token _ _ inner d digits rest kind' value' tokens length _ hpiece' hshows' _ =>
        obtain rfl := Option.some.inj hnumber
        -- nothing is between the sign and the number
        obtain rfl : inner = [] := Text.eq_nil_of_byteLength (by simp at htouch; omega)
        obtain ⟨e, he, hdigit⟩ := head_isDigit (writableAt_of_piece hpiece').writable hunsigned.1
          hunsigned.2
        have hvalue : d :: digits = value'.toList := by
          obtain ⟨rfl | rfl, -⟩ := hunsigned
          · exact hshows'
          · exact hshows'
        rw [← hvalue] at he
        obtain rfl := Option.some.inj he
        exact after_of_operator hpiece hkind hsign ((Option.any_eq_true _ _).mpr ⟨d, rfl, hdigit⟩)

/-! ## Whole texts -/

/-- How the tokens of a text lie in it. -/
structure Tiling (source file : String) (found : List Token) : Prop where
  /-- none of them stands for the end -/
  kind : ∀ token ∈ found, token.kind ≠ .eof
  /-- each shows the part of the text in its span, which is not empty -/
  lexeme : ∀ token ∈ found, ∃ lexeme,
    Text.Slice source.toList token.span.start.offset token.span.stop.offset lexeme ∧
      token.span.start.offset < token.span.stop.offset ∧ Shows token.kind token.value lexeme
  /-- the text can be cut at both ends of a span, also of the one for the end -/
  place : ∀ token ∈ found ++ [endOfText file source.utf8ByteSize],
    token.span.On (Position.Within source file)
  /-- offsets are numbers of 32 bits in a text of that size -/
  narrow : source.utf8ByteSize < UInt32.size →
    ∀ token ∈ found ++ [endOfText file source.utf8ByteSize],
      token.span.On (·.offset < UInt32.size)
  /-- each ends before those behind it begin -/
  ordered : found.Pairwise fun a b => a.span.stop.offset ≤ b.span.start.offset
  /-- only blanks stand before the first -/
  front : ∀ token ∈ (found ++ [endOfText file source.utf8ByteSize]).head?,
    Text.Blank source.toList 0 token.span.start.offset
  /-- only blanks stand between two of them, and behind the last -/
  between : (found ++ [endOfText file source.utf8ByteSize]).IsChain fun a b =>
    Text.Blank source.toList a.span.stop.offset b.span.start.offset
  /-- signs belong to numbers or are operators by what is in front of them -/
  signs : SignsFit none found

theorem Tiled.kind_ne (h : Tiled file offset previous cs tokens length) :
    ∀ token ∈ tokens, token.kind ≠ .eof := by
  induction h with
  | finish => exact List.forall_mem_nil _
  | token _ hpiece _ _ ih =>
    refine List.forall_mem_cons.mpr ⟨?_, ih⟩
    rintro rfl
    exact (writableAt_of_piece hpiece).writable

/-- The tokens of a text tile it where they are found. -/
theorem tiling_of_scanText {source file : String} {tokens : List Token}
    (h : scanText source file = .ok tokens) :
    ∃ found, tokens = found ++ [endOfText file source.utf8ByteSize] ∧
      Tiling source file found := by
  have hplaces := (scanText_places source file).of_ok h
  rw [scanText] at h
  split at h
  · next length hfinish =>
    have htiled := scan_tiled file 0 none source.toList hfinish
    obtain rfl : length = source.utf8ByteSize := by
      rw [htiled.length_eq, Nat.zero_add, ← Text.utf8ByteSize_ofList, String.ofList_toList]
    obtain rfl := Except.ok.inj h
    refine ⟨_, rfl, htiled.kind_ne, fun token htoken => ?_, hplaces, fun hsize token htoken => ?_,
      htiled.pairwise, (htiled.blank [] rfl rfl).1, (htiled.blank [] rfl rfl).2, htiled.signsFit⟩
    · obtain ⟨lexeme, hslice, hne, hshows⟩ := htiled.slice [] rfl rfl token htoken
      refine ⟨lexeme, hslice, ?_, hshows⟩
      obtain ⟨front, back, -, -, hstop⟩ := hslice
      have hpos := Nat.pos_of_ne_zero (mt Text.eq_nil_of_byteLength hne)
      omega
    · obtain ⟨hstart, hstop⟩ := hplaces token htoken
      exact ⟨Nat.lt_of_le_of_lt hstart.boundary.le_utf8ByteSize hsize,
        Nat.lt_of_le_of_lt hstop.boundary.le_utf8ByteSize hsize⟩
  · cases h

/-- In a text of less than 2^32 bytes, the tokens tile it where they are stored. -/
theorem tiling_of_tokenize {source file : String} {tokens : List Token}
    (hsize : source.utf8ByteSize < UInt32.size) (h : tokenize source file = .ok tokens) :
    ∃ found, tokens = found ++ [endOfText file source.utf8ByteSize] ∧
      Tiling source file found :=
  tiling_of_scanText (tokenize_eq_scanText hsize file ▸ h)

/-- What may be left of a text when a piece was taken off its front. -/
def Advances (rest text : List Char) : Prop :=
  ∃ after c cs more, text = c :: cs ∧ (piece after c cs).more? = some more ∧ rest = cs.drop more

theorem byteLength_lt_of_advances {rest text : List Char} (h : Advances rest text) :
    byteLength rest < byteLength text := by
  obtain ⟨after, c, cs, more, rfl, -, rfl⟩ := h
  have hcs := congrArg byteLength (List.take_append_drop more cs)
  rw [Text.byteLength_append] at hcs
  have hc := c.utf8Size_pos
  rw [Text.byteLength_cons]
  omega

/-- The tokens of every text that can be read tile it where they are found, and their places are
stored as they are if the text has less than 2^32 bytes. The reading of any text takes pieces off
its front that are all there, the lexeme of a piece being at least one byte long, and so cannot go
on for ever. -/
theorem tokenize_tiles :
    (∀ (source file : String) (tokens : List Token), tokenize source file = .ok tokens →
      ∃ found, Tiling source file found ∧
        tokens = (found ++ [endOfText file source.utf8ByteSize]).map stored ∧
        (source.utf8ByteSize < UInt32.size →
          tokens = found ++ [endOfText file source.utf8ByteSize])) ∧
    (∀ (after : Bool) (c : Char) (cs : List Char) (more : Nat),
      (piece after c cs).more? = some more →
        more ≤ cs.length ∧ (piece after c cs).Covers (c :: cs.take more) ∧
          1 ≤ byteLength (c :: cs.take more)) ∧
    WellFounded Advances := by
  refine ⟨fun source file tokens h => ?_, fun after c cs more hmore => ?_, ?_⟩
  · obtain ⟨exact, hexact, rfl⟩ := scanText_of_tokenize h
    obtain ⟨found, rfl, htiling⟩ := tiling_of_scanText hexact
    exact ⟨found, htiling, rfl, fun hsize => eq_of_scanText hsize h hexact⟩
  · obtain ⟨taken, rest, rfl, rfl, hcovers, -⟩ := piece_cut rfl hmore
    rw [List.take_left, List.length_append]
    exact ⟨Nat.le_add_right _ _, hcovers, Text.byteLength_pos_of_cons _ _⟩
  · exact Subrelation.wf byteLength_lt_of_advances (measure byteLength).wf

/-- A text in which signs mean different things, with a character of two bytes. -/
def signed : String := "n -1+2*-3 'é'\t\"\\n\" "

theorem signed_tiled : ∃ found,
    tokenize signed "shell" = .ok (found ++ [endOfText "shell" 20]) ∧
      found.map Token.word = [(.identifier, "n"), (.dash, "-"), (.integer, "1"), (.plus, "+"),
        (.integer, "2"), (.star, "*"), (.integer, "-3"), (.character, "é"), (.string, "\n")] ∧
      Tiling signed "shell" found := by
  have hwords : ((tokenize signed "shell").toOption.map fun tokens => tokens.map Token.word) =
      some [(.identifier, "n"), (.dash, "-"), (.integer, "1"), (.plus, "+"), (.integer, "2"),
        (.star, "*"), (.integer, "-3"), (.character, "é"), (.string, "\n"), (.eof, "EOF")] := by
    decide +kernel
  cases htokens : tokenize signed "shell" with
  | error d =>
    rw [htokens] at hwords
    cases hwords
  | ok tokens =>
    obtain ⟨found, htiling, -, hplaces⟩ := tokenize_tiles.1 signed "shell" tokens htokens
    obtain rfl := hplaces (by decide)
    rw [htokens] at hwords
    have hall := List.map_append.symm.trans (Option.some.inj hwords)
    exact ⟨found, rfl, List.append_cancel_right hall, htiling⟩

end Token

end TeachLang
