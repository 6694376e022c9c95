import TeachLang.Proofs.Tiles

/-!
# Texts that cannot be read

The reading of a text stops at its first fault, and what was read until then does not depend on the
fault: if the text is cut off there, the same tokens are found in what is left. For that no lexeme
may reach behind the cut, which `piece_takes` says of each piece, and `scan_stops` of all of them.

`Stopped` says what is at the fault: a quote that opens no literal, a character that begins nothing,
or a literal with an escape that does not exist. Then the text is cut off in front of the literal.
-/

namespace TeachLang.Token

open Text (byteLength)

/-! ## What is at a fault -/

/-- What stands at the front of a text that has a fault some bytes behind its front. -/
inductive FaultAt : List Char → Fault → Nat → Prop where
  /-- a quote that opens no literal -/
  | unterminated {quote : Char} {cs : List Char} : quote = '\'' ∨ quote = '"' →
    NoLiteral (quote :: cs) → FaultAt (quote :: cs) .unterminatedLiteral 0
  /-- a character that begins nothing -/
  | unrecognised {c : Char} {cs : List Char} :
    FaultAt (c :: cs) (.unrecognisedToken c.toString) 0
  /-- a literal with an escape that does not exist, behind none or others that do -/
  | escape {kind : Kind} {quote c : Char} {before after rest : List Char} :
    Quoted kind (before ++ '\\' :: c :: after)
      (quote :: (before ++ '\\' :: c :: after) ++ [quote]) →
    Body quote (· ∈ escapes) before → c ∉ escapes →
    FaultAt (quote :: (before ++ '\\' :: c :: after) ++ [quote] ++ rest) (.invalidEscape c)
      (byteLength (quote :: before))

/-- What is wrong with a quoted literal is one of its escapes. -/
theorem faultAt_of_quotedLiteral {kind : Kind} {quote : Char} {body : List Char} {fault : Fault}
    {bytes : Nat} (hbody : Body quote (· ≠ '\n') body) (hsize : quote.utf8Size = 1)
    (hquoted : Quoted kind body (quote :: body ++ [quote]))
    (h : quotedLiteral kind body = .fault fault bytes) (rest : List Char) :
    FaultAt (quote :: (body ++ quote :: rest)) fault bytes := by
  rcases decode_body hbody with ⟨text, htext⟩ | ⟨before, e, after, rfl, hbefore, he, herror⟩
  · rw [quotedLiteral, htext] at h
    cases h
  · rw [quotedLiteral, herror] at h
    obtain ⟨rfl, rfl⟩ := Piece.fault.inj h
    have hfault : FaultAt (quote :: (before ++ '\\' :: e :: after) ++ [quote] ++ rest)
        (.invalidEscape e) (byteLength (quote :: before)) := .escape hquoted hbefore he
    rw [Text.byteLength_cons, hsize] at hfault
    simpa using hfault

/-- A fault is found only where one is. -/
theorem faultAt_of_piece {after : Bool} {c : Char} {cs : List Char} {fault : Fault} {bytes : Nat}
    (h : piece after c cs = .fault fault bytes) : FaultAt (c :: cs) fault bytes := by
  cases begins after c cs with
  | separator hc =>
    rw [piece_separators hc] at h
    cases h
  | word hc =>
    rw [piece_word hc] at h
    cases h
  | number hnumber =>
    rw [piece_number hnumber] at h
    cases h
  | literal hsize hbody hquoted hpiece =>
    rw [hpiece] at h
    exact faultAt_of_quotedLiteral hbody hsize hquoted h _
  | unclosed hquote hnone hpiece =>
    rw [hpiece] at h
    cases h
    exact .unterminated hquote hnone
  | symbol hmay =>
    rw [piece_symbol hmay] at h
    cases hsymbol : symbol? (c :: cs) with
    | some found =>
      rw [hsymbol] at h
      cases h
    | none =>
      rw [hsymbol] at h
      cases h
      exact .unrecognised

/-! ## Cutting a text off at a fault -/

theorem byteLength_behind (offset : Nat) (c : Char) (taken front : List Char) :
    offset + byteLength (c :: taken) + byteLength front =
      offset + byteLength (c :: (taken ++ front)) := by
  simp only [Text.byteLength_cons, Text.byteLength_append]
  omega

/-- What is read until a fault is found as well if the text is cut off where the fault is found. -/
theorem scan_stops (file : String) (offset : Nat) (previous : Option Kind) (cs : List Char)
    {d : Diagnostic} (h : (scan file offset previous cs).finish = .error d) :
    ∃ front back fault bytes, cs = front ++ back ∧ FaultAt back fault bytes ∧
      d = ⟨fault, ⟨offset + byteLength front + bytes, file⟩⟩ ∧
      scan file offset previous front =
        ⟨(scan file offset previous cs).tokens, .ok (offset + byteLength front)⟩ := by
  fun_induction scan file offset previous cs with
  | case1 => cases h
  | case2 offset previous c cs more hpiece ih =>
    obtain ⟨taken, rest, rfl, rfl, -, hcut⟩ := piece_cut hpiece rfl
    simp only [List.take_left, List.drop_left] at h ih ⊢
    obtain ⟨front, back, fault, bytes, hrest, hfault, rfl, hfront⟩ := ih h
    refine ⟨c :: (taken ++ front), back, fault, bytes, by simp [hrest], hfault, ?_, ?_⟩
    · rw [byteLength_behind]
    · rw [scan, hcut front back hrest]
      simp only [List.take_left, List.drop_left]
      rw [hfront, byteLength_behind]
  | case3 offset previous c cs kind value more hpiece stop scanned ih =>
    obtain ⟨taken, rest, rfl, rfl, -, hcut⟩ := piece_cut hpiece rfl
    simp only [List.take_left, List.drop_left, stop, scanned] at h ih ⊢
    obtain ⟨front, back, fault, bytes, hrest, hfault, rfl, hfront⟩ := ih h
    refine ⟨c :: (taken ++ front), back, fault, bytes, by simp [hrest], hfault, ?_, ?_⟩
    · rw [byteLength_behind]
    · rw [scan, hcut front back hrest]
      simp only [List.take_left, List.drop_left]
      rw [hfront, byteLength_behind]
  | case4 offset previous c cs fault bytes hpiece =>
    obtain rfl := Except.error.inj h
    exact ⟨[], c :: cs, fault, bytes, rfl, faultAt_of_piece hpiece, rfl, by rw [scan]; rfl⟩

/-- A text has a fault, and what is read in front of it is read as well if the text is cut off
where the fault stands, or the literal that it is in. The diagnostic names the place of the fault as
it is stored, which is where it stands if the text has less than 2^32 bytes. -/
def Stops (source file : String) (d : Diagnostic) : Prop :=
  ∃ front back fault bytes, source.toList = front ++ back ∧ FaultAt back fault bytes ∧
    d = ⟨fault, Position.stored ⟨byteLength front + bytes, file⟩⟩ ∧
    (source.utf8ByteSize < UInt32.size → d.position.offset = byteLength front + bytes) ∧
    tokenize (String.ofList front) file =
      .ok (((scan file 0 none source.toList).tokens ++
        [endOfText file (byteLength front)]).map stored)

theorem stops_of_tokenize {source file : String} {d : Diagnostic}
    (h : tokenize source file = .error d) : Stops source file d := by
  obtain ⟨found, hfound, rfl⟩ := scanText_of_fault h
  have hplace := (scanText_places source file).of_error hfound
  rw [scanText] at hfound
  split at hfound
  · cases hfound
  · next hfinish =>
    obtain rfl := Except.error.inj hfound
    obtain ⟨front, back, fault, bytes, hsource, hfault, rfl, hfront⟩ := scan_stops _ _ _ _ hfinish
    rw [Nat.zero_add] at hfront hplace ⊢
    refine ⟨front, back, fault, bytes, hsource, hfault, rfl, fun hsize => ?_, ?_⟩
    · rw [Diagnostic.stored, hplace.position.stored_eq hsize]
    · rw [tokenize, scanText, String.toList_ofList, hfront]

/-- The reading of a text that fails stops at a fault: a quote that opens no literal, a character
that begins nothing, or an escape that does not exist in a literal that is closed. All that stands
in front of it was read, and would be read without what stands behind. Literals that are not closed
are found by their quotes alone, never when a body is decoded. -/
theorem tokenize_stops :
    (∀ (source file : String) (d : Diagnostic), tokenize source file = .error d →
      Stops source file d) ∧
    ∀ (quote : Char) (cs body : List Char) (bytes : Nat), quote ≠ '\\' →
      rawBody quote cs = some body → decode body ≠ .error (.unterminatedLiteral, bytes) := by
  refine ⟨fun _ _ _ h => stops_of_tokenize h, fun quote cs body bytes hquote hbody h => ?_⟩
  obtain ⟨hbody, -⟩ := (rawBody_iff hquote).mp hbody
  rcases decode_body hbody with ⟨text, htext⟩ | ⟨before, c, after, -, -, -, hescape⟩
  · cases htext.symm.trans h
  · cases hescape.symm.trans h

/-- A text with two characters between the quotes for one. -/
def crowded : String := "x = 'ab'"

/-- A text with a character that begins nothing, right behind a name. -/
def commented : String := "x# y"

/-- A text with an escape that does not exist, behind a character of two bytes and an escape that
does. -/
def escaping : String := "x = \"é\\n\\q\";"

theorem faulty_stop :
    tokenize crowded "shell" = .error ⟨.unterminatedLiteral, ⟨4, "shell"⟩⟩ ∧
      Stops crowded "shell" ⟨.unterminatedLiteral, ⟨4, "shell"⟩⟩ ∧
      tokenize commented "shell" = .error ⟨.unrecognisedToken "#", ⟨1, "shell"⟩⟩ ∧
      Stops commented "shell" ⟨.unrecognisedToken "#", ⟨1, "shell"⟩⟩ ∧
      tokenize escaping "shell" = .error ⟨.invalidEscape 'q', ⟨9, "shell"⟩⟩ ∧
      Stops escaping "shell" ⟨.invalidEscape 'q', ⟨9, "shell"⟩⟩ ∧
      decode ['b', '\\', 'q'] ≠ .error (.unterminatedLiteral, 1) := by
  have hcrowded : tokenize crowded "shell" = .error ⟨.unterminatedLiteral, ⟨4, "shell"⟩⟩ := by
    decide +kernel
  have hcommented : tokenize commented "shell" = .error ⟨.unrecognisedToken "#", ⟨1, "shell"⟩⟩ := by
    decide +kernel
  have hescaping : tokenize escaping "shell" = .error ⟨.invalidEscape 'q', ⟨9, "shell"⟩⟩ := by
    decide +kernel
  exact ⟨hcrowded, tokenize_stops.1 _ _ _ hcrowded, hcommented, tokenize_stops.1 _ _ _ hcommented,
    hescaping, tokenize_stops.1 _ _ _ hescaping,
    tokenize_stops.2 '"' ['b', '\\', 'q', '"'] _ 1 (by decide) rfl⟩

end TeachLang.Token
