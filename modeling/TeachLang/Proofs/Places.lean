import TeachLang.Proofs.Ensures
import TeachLang.Token.Scan

/-!
# Places in a text

Not every offset is a place in a text: it may lie behind the end, or inside of a character that
takes several bytes. `Position.Within` says of a position that it belongs to a text and its file, by
the UTF-8 form of the text. The offset of a token is the sum of what stands in front of it, and that
of a faulty escape is counted inside of its literal; both come to such positions, and every one of
them is found on a line.
-/

namespace TeachLang

/-! ## Boundaries -/

namespace Text

/-- Whole characters come to this number of bytes at the front of a text. -/
def Boundary (text : List Char) (offset : Nat) : Prop :=
  ∃ front back, text = front ++ back ∧ byteLength front = offset

namespace Boundary

variable {text front : List Char} {offset : Nat}

theorem zero (text : List Char) : Boundary text 0 := ⟨[], text, rfl, rfl⟩

/-- Behind a front that is as long as that. -/
theorem behind (front back : List Char) : Boundary (front ++ back) (byteLength front) :=
  ⟨front, back, rfl, rfl⟩

theorem append (front : List Char) (h : Boundary text offset) :
    Boundary (front ++ text) (byteLength front + offset) := by
  obtain ⟨inner, back, rfl, rfl⟩ := h
  rw [← List.append_assoc, ← byteLength_append]
  exact behind _ _

theorem of_isPrefix (h : Boundary front offset) (hfront : front <+: text) :
    Boundary text offset := by
  obtain ⟨inner, back, rfl, rfl⟩ := h
  obtain ⟨rest, rfl⟩ := hfront
  rw [List.append_assoc]
  exact behind _ _

end Boundary

theorem utf8ByteSize_ofList (cs : List Char) : (String.ofList cs).utf8ByteSize = byteLength cs := by
  induction cs with
  | nil => rfl
  | cons c cs ih =>
    rw [byteLength_cons, ← ih, ← List.singleton_append, String.ofList_append,
      String.utf8ByteSize_append, ← String.singleton_eq_ofList, String.utf8ByteSize_singleton]

theorem Boundary.isValid {source : String} {offset : Nat} (h : Boundary source.toList offset) :
    String.Pos.Raw.IsValid source ⟨offset⟩ := by
  obtain ⟨front, back, hsource, rfl⟩ := h
  refine String.Pos.Raw.isValid_iff_exists_append.mpr
    ⟨String.ofList front, String.ofList back, ?_, ?_⟩
  · rw [← String.ofList_append, ← hsource, String.ofList_toList]
  · rw [← utf8ByteSize_ofList]
    rfl

/-! ## Lines -/

theorem flatten_lines (text : List Char) : (lines text).flatten = text := by
  induction text with
  | nil => rfl
  | cons c cs ih =>
    rw [lines]
    split
    · rw [List.flatten_cons, ih]
      rfl
    · split
      · next hlines =>
        rw [hlines] at ih
        rw [← ih]
        rfl
      · next line others hlines =>
        rw [hlines] at ih
        rw [List.flatten_cons, List.cons_append, ← List.flatten_cons, ih]

/-- The walk down the lines ends on one of them, or on the empty line behind the last. -/
theorem isSome_findLine : ∀ {ls : List (List Char)} {number offset : Nat},
    offset ≤ byteLength ls.flatten → (findLine number offset ls).isSome = true
  | [], number, offset, h => by
    rw [findLine, if_pos (Nat.le_zero.mp h)]
    rfl
  | l :: ls, number, offset, h => by
    rw [List.flatten_cons, byteLength_append] at h
    rw [findLine]
    split
    · rfl
    · split
      · rfl
      · exact isSome_findLine (by omega)

theorem isSome_lineAt {text : List Char} {offset : Nat} (h : offset ≤ byteLength text) :
    (lineAt text offset).isSome = true :=
  isSome_findLine (by rwa [flatten_lines])

end Text

/-! ## Positions -/

/-- A position in a text: it names the file of the text, and its offset falls between two characters
of it, or on one of its ends. -/
structure Position.Within (source file : String) (p : Position) : Prop where
  /-- the name of the file -/
  file : p.file = file
  /-- the offset is one that the UTF-8 form of the text can be cut at -/
  boundary : String.Pos.Raw.IsValid source ⟨p.offset⟩

/-- A position is in the text if it is counted from a place in the text on. -/
theorem Position.within_behind {source : String} (file : String) {front cs : List Char}
    (hsource : source.toList = front ++ cs) {offset bytes : Nat}
    (hoffset : Text.byteLength front = offset) (h : Text.Boundary cs bytes) :
    Position.Within source file ⟨offset + bytes, file⟩ :=
  ⟨rfl, Text.Boundary.isValid (hsource ▸ hoffset ▸ h.append front)⟩

/-- A position in a text of less than 2^32 bytes is stored as it is. -/
theorem Position.Within.stored_eq {source file : String} {p : Position}
    (h : p.Within source file) (hsize : source.utf8ByteSize < UInt32.size) : p.stored = p :=
  Position.stored_of_lt (Nat.lt_of_le_of_lt h.boundary.le_utf8ByteSize hsize)

/-- A span both ends of which are as described. -/
structure Span.On (P : Position → Prop) (s : Span) : Prop where
  /-- where it begins -/
  start : P s.start
  /-- the place just past it -/
  stop : P s.stop

/-- A span in a text of less than 2^32 bytes is stored as it is. -/
theorem Span.On.stored_eq {source file : String} {s : Span} (h : s.On (Position.Within source file))
    (hsize : source.utf8ByteSize < UInt32.size) : s.stored = s := by
  rw [Span.stored, h.start.stored_eq hsize, h.stop.stored_eq hsize]

/-- A diagnostic whose fault belongs to a phase, at a position as described. -/
structure Diagnostic.Blames (phase : Phase) (P : Position → Prop) (d : Diagnostic) : Prop where
  /-- which part of the work it comes from -/
  fault : d.fault.phase = phase
  /-- where it shows -/
  position : P d.position

/-- A diagnostic that points into a text and is shown with a line of it. -/
structure Diagnostic.PointsInto (source file : String) (d : Diagnostic) : Prop
    extends Position.Within source file d.position where
  /-- the text reaches that far -/
  reached : d.position.offset ≤ source.utf8ByteSize
  /-- the offset is a number of 32 bits -/
  narrow : d.position.offset < UInt32.size
  /-- there is a line to show, and it is shown -/
  shown : ∃ place, Text.lineAt source.toList d.position.offset = some place ∧
    ∀ path, d.render source path = d.headline ++ "-> " ++ path ++ "\n" ++ Diagnostic.excerpt place

theorem Diagnostic.points_of_within {source file : String} {d : Diagnostic}
    (hsize : source.utf8ByteSize < UInt32.size) (h : d.position.Within source file) :
    d.PointsInto source file := by
  have hreached : d.position.offset ≤ source.utf8ByteSize := h.boundary.le_utf8ByteSize
  have hlength : source.utf8ByteSize = Text.byteLength source.toList := by
    rw [← Text.utf8ByteSize_ofList, String.ofList_toList]
  obtain ⟨place, hplace⟩ := Option.isSome_iff_exists.mp (Text.isSome_lineAt (hlength ▸ hreached))
  refine ⟨h, hreached, Nat.lt_of_le_of_lt hreached hsize, place, hplace, fun path => ?_⟩
  rw [Diagnostic.render, hplace]

/-! ## Tokens -/

namespace Token

open Text (Boundary byteLength)

/-- The fault of a body is at one of its backslashes. -/
theorem decode_fault {body : List Char} {fault : Fault} {bytes : Nat}
    (h : decode body = .error (fault, bytes)) : fault.phase = .reading ∧ Boundary body bytes := by
  fun_induction decode body generalizing fault bytes with
  | case1 => cases h
  | case2 =>
    cases h
    exact ⟨rfl, .zero _⟩
  | case3 c cs hescape =>
    cases h
    exact ⟨rfl, .zero _⟩
  | case4 => cases h
  | case5 c cs d hescape found inner hrest ih =>
    cases h
    obtain ⟨hphase, hinner⟩ := ih hrest
    exact ⟨hphase, hinner.append ['\\', c]⟩
  | case6 => cases h
  | case7 c cs _ _ found inner hrest ih =>
    cases h
    obtain ⟨hphase, hinner⟩ := ih hrest
    exact ⟨hphase, hinner.append [c]⟩

/-- The body of a literal stands in front of its closing quote. -/
theorem isPrefix_rawBody {quote : Char} {cs body : List Char}
    (h : rawBody quote cs = some body) : body <+: cs := by
  fun_induction rawBody quote cs generalizing body with
  | case1 | case2 | case5 => cases h
  | case3 c cs hc ih =>
    obtain ⟨inner, hinner, rfl⟩ := Option.map_eq_some_iff.mp h
    exact (List.prefix_append_right_inj ['\\', c]).mpr (ih hinner)
  | case4 =>
    obtain rfl := Option.some.inj h
    exact List.nil_prefix
  | case6 c cs _ _ _ ih =>
    obtain ⟨inner, hinner, rfl⟩ := Option.map_eq_some_iff.mp h
    exact (List.prefix_append_right_inj [c]).mpr (ih hinner)

theorem quotedLiteral_fault {kind : Kind} {c : Char} {cs body : List Char} {fault : Fault}
    {bytes : Nat} (hsize : c.utf8Size = 1) (hbody : body <+: cs)
    (h : quotedLiteral kind body = .fault fault bytes) :
    fault.phase = .reading ∧ Boundary (c :: cs) bytes := by
  unfold quotedLiteral at h
  split at h
  · cases h
  · next hdecode =>
    cases h
    obtain ⟨hphase, hbytes⟩ := decode_fault hdecode
    refine ⟨hphase, ?_⟩
    have happend := (hbytes.of_isPrefix hbody).append [c]
    rwa [Text.byteLength_cons, Text.byteLength_nil, hsize] at happend

/-- What stops the reading of a text is a fault of reading, between two characters. -/
theorem piece_fault {after : Bool} {c : Char} {cs : List Char} {fault : Fault} {bytes : Nat}
    (h : piece after c cs = .fault fault bytes) :
    fault.phase = .reading ∧ Boundary (c :: cs) bytes := by
  unfold piece at h
  split at h
  · cases h
  split at h
  · cases h
  split at h
  · cases h
  split at h
  · cases h
  split at h
  · next hquote =>
    split at h
    · next body hbody =>
      split at h
      · exact quotedLiteral_fault (hquote ▸ rfl) (isPrefix_rawBody hbody) h
      · cases h
        exact ⟨rfl, .zero _⟩
    · cases h
      exact ⟨rfl, .zero _⟩
  split at h
  · next hquote =>
    split at h
    · next body hbody => exact quotedLiteral_fault (hquote ▸ rfl) (isPrefix_rawBody hbody) h
    · cases h
      exact ⟨rfl, .zero _⟩
  split at h
  · cases h
  · cases h
    exact ⟨rfl, .zero _⟩

/-- Tokens and faults that are found behind a part of a text have positions in the text. -/
theorem scan_places {source : String} (file : String) (offset : Nat) (previous : Option Kind)
    (cs : List Char) : ∀ front, source.toList = front ++ cs → byteLength front = offset →
      (∀ token ∈ (scan file offset previous cs).tokens,
        token.span.On (Position.Within source file)) ∧
      Answers (fun length => Position.Within source file ⟨length, file⟩)
        (Diagnostic.Blames .reading (Position.Within source file))
        (scan file offset previous cs).finish := by
  fun_induction scan file offset previous cs with
  | case1 offset previous =>
    intro front hsource hoffset
    exact ⟨nofun, Position.within_behind file hsource hoffset (.zero _)⟩
  | case2 offset previous c cs more hpiece ih =>
    intro front hsource hoffset
    exact ih (front ++ c :: cs.take more) (by simp [hsource]) (by simp [hoffset])
  | case3 offset previous c cs kind text more hpiece stop rest ih =>
    intro front hsource hoffset
    have hrest : source.toList = (front ++ c :: cs.take more) ++ cs.drop more := by simp [hsource]
    have hlength : byteLength (front ++ c :: cs.take more) = stop := by simp [hoffset, stop]
    obtain ⟨htokens, hfinish⟩ := ih _ hrest hlength
    have hstart := Position.within_behind file hsource hoffset (.zero _)
    have hstop := Position.within_behind file hrest hlength (.zero _)
    exact ⟨List.forall_mem_cons.mpr ⟨⟨hstart, hstop⟩, htokens⟩, hfinish⟩
  | case4 offset previous c cs fault bytes hpiece =>
    intro front hsource hoffset
    obtain ⟨hphase, hbytes⟩ := piece_fault hpiece
    exact ⟨nofun, hphase, Position.within_behind file hsource hoffset hbytes⟩

/-- All tokens of a text begin and end in the text, the closing one included; if there are none, the
fault is one of reading, and in the text. -/
theorem scanText_places (source file : String) :
    Answers (fun tokens => ∀ token ∈ tokens, token.span.On (Position.Within source file))
      (Diagnostic.Blames .reading (Position.Within source file)) (scanText source file) := by
  obtain ⟨htokens, hfinish⟩ := scan_places file 0 none source.toList [] rfl rfl
  rw [scanText]
  split
  · next length hlength =>
    rw [hlength] at hfinish
    refine List.forall_mem_append.mpr ⟨htokens, fun token htoken => ?_⟩
    obtain rfl := List.mem_singleton.mp htoken
    exact ⟨hfinish, hfinish⟩
  · next d hd =>
    rw [hd] at hfinish
    exact hfinish

/-- In a text of less than 2^32 bytes, all places are stored as they are. -/
theorem tokenize_eq_scanText {source : String} (hsize : source.utf8ByteSize < UInt32.size)
    (file : String) : tokenize source file = scanText source file := by
  have hplaces := scanText_places source file
  rw [tokenize]
  split
  · next tokens htokens =>
    rw [htokens] at hplaces ⊢
    congr 1
    refine (List.map_congr_left fun token htoken => ?_).trans (List.map_id tokens)
    rw [stored, (hplaces token htoken).stored_eq hsize]
    rfl
  · next d hd =>
    rw [hd] at hplaces ⊢
    rw [Diagnostic.stored, hplaces.position.stored_eq hsize]

/-- So the tokens of such a text are those that scanning finds. -/
theorem eq_of_scanText {source file : String} {tokens found : List Token}
    (hsize : source.utf8ByteSize < UInt32.size) (h : tokenize source file = .ok tokens)
    (hfound : scanText source file = .ok found) : tokens = found :=
  Except.ok.inj (h.symm.trans ((tokenize_eq_scanText hsize file).trans hfound))

/-- Tokens and faults of such a text lie within it where they are stored. -/
theorem tokenize_places {source : String} (hsize : source.utf8ByteSize < UInt32.size)
    (file : String) :
    Answers (fun tokens => ∀ token ∈ tokens, token.span.On (Position.Within source file))
      (Diagnostic.Blames .reading (Position.Within source file)) (tokenize source file) := by
  rw [tokenize_eq_scanText hsize]
  exact scanText_places source file

end Token

end TeachLang
