import Mathlib.Data.Prod.Lex
import TeachLang.Proofs.Carets

/-!
# Offsets and lines

An offset counts the bytes in front of a place, a reader counts lines and the bytes on a line.
`lineAt` goes from the one to the other for every offset up to the end of the text, those inside of
a character too.

* `LinePlace.Marks` says what a place has to do with an offset without walking down the lines: how
  many newlines are in front, which whole line it is on, and which bytes stand before it.
* `LinePlace.Marks.lt_of_lt`: places are in the order of their offsets, by the line and then by the
  column. So every offset can be told from the place.
-/

namespace TeachLang.Text

variable {text before front : List Char} {c : Char}

/-! ## Bytes -/

/-- The UTF-8 form of a text. -/
def bytes (text : List Char) : List UInt8 := text.flatMap String.utf8EncodeChar

/-- The byte of a newline. -/
def newlineByte : UInt8 := 10

theorem bytes_append (front rest : List Char) : bytes (front ++ rest) = bytes front ++ bytes rest :=
  List.flatMap_append

theorem length_bytes (text : List Char) : (bytes text).length = byteLength text := by
  induction text with
  | nil => rfl
  | cons c cs ih =>
    rw [bytes, List.flatMap_cons, List.length_append, String.length_utf8EncodeChar, ← bytes, ih,
      byteLength_cons]

/-- No other character has the byte of a newline in it. -/
theorem newlineByte_notMem (hc : c ≠ '\n') : newlineByte ∉ String.utf8EncodeChar c := by
  have hcode : c.val.toNat ≠ 10 := fun h => hc (Char.ext (UInt32.toNat_inj.mp h))
  have hbyte : ∀ {n : Nat}, n % 256 ≠ 10 → newlineByte ≠ UInt8.ofNat n := by
    intro n hn heq
    exact hn (congrArg UInt8.toNat heq).symm
  -- the first byte of several is 192 at least, and those behind it are 128 at least
  simp only [String.utf8EncodeChar]
  split
  · simp only [List.mem_singleton]
    exact hbyte (by omega)
  split
  · simp only [List.mem_cons, List.not_mem_nil, or_false, not_or]
    exact ⟨hbyte (by omega), hbyte (by omega)⟩
  split
  · simp only [List.mem_cons, List.not_mem_nil, or_false, not_or]
    exact ⟨hbyte (by omega), hbyte (by omega), hbyte (by omega)⟩
  · simp only [List.mem_cons, List.not_mem_nil, or_false, not_or]
    exact ⟨hbyte (by omega), hbyte (by omega), hbyte (by omega), hbyte (by omega)⟩

/-- The newlines of a text are counted in its bytes. -/
theorem count_bytes (text : List Char) : (bytes text).count newlineByte = text.count '\n' := by
  induction text with
  | nil => rfl
  | cons c cs ih =>
    rw [bytes, List.flatMap_cons, List.count_append, ← bytes, ih]
    by_cases hc : c = '\n'
    · subst hc
      rw [List.count_cons_self, Nat.add_comm]
      rfl
    · rw [List.count_eq_zero_of_not_mem (newlineByte_notMem hc), List.count_cons_of_ne hc,
        Nat.zero_add]

/-- The bytes up to a place on a line. -/
theorem take_bytes {line : List Char} {column : Nat} (h : column ≤ byteLength line)
    (behind : List Char) :
    (bytes (before ++ (line ++ behind))).take (byteLength before + column) =
      bytes before ++ (bytes line).take column := by
  rw [bytes_append, bytes_append, ← length_bytes, List.take_length_add_append,
    List.take_append_of_le_length (by rwa [length_bytes])]

/-! ## The line of an offset -/

/-- A line of a text: whole lines stand before it, and it goes up to its newline, or to the end. -/
structure WholeLine (before line behind : List Char) : Prop where
  /-- a line begins behind what stands before -/
  endsLine : EndsLine before
  /-- there is no newline in it but at its end -/
  oneLine : '\n' ∉ line.dropLast
  /-- there is one at its end if anything stands behind it -/
  closed : behind ≠ [] → line.getLast? = some '\n'

/-- What a place says about an offset. -/
structure LinePlace.Marks (place : LinePlace) (text : List Char) (offset : Nat) : Prop where
  /-- the number of the line counts the newlines in front -/
  number : place.number = ((bytes text).take offset).count newlineByte + 1
  /-- the line is the whole one of that number, and what stands before it and the bytes in front of
  the place on it are all bytes up to the offset -/
  line : ∃ before behind, text = before ++ (place.text ++ behind) ∧
    WholeLine before place.text behind ∧ place.number = before.count '\n' + 1 ∧
    place.column ≤ (bytes place.text).length ∧
    (bytes text).take offset = bytes before ++ (bytes place.text).take place.column
  /-- the line is empty only behind a last newline, or in an empty text -/
  empty : place.text = [] ↔ offset = (bytes text).length ∧ EndsLine text

/-- A line goes up to the first newline. -/
theorem exists_wholeLine (hbefore : EndsLine before) (rest : List Char) :
    ∃ behind, rest = firstLine rest ++ behind ∧ WholeLine before (firstLine rest) behind := by
  by_cases hrest : '\n' ∈ rest
  · obtain ⟨front, behind, rfl, hfront⟩ := List.eq_append_cons_of_mem hrest
    have hfirst : firstLine (front ++ '\n' :: behind) = front ++ ['\n'] := firstLine_append hfront _
    refine ⟨behind, ?_, hbefore, ?_, ?_⟩
    · rw [hfirst, List.append_assoc, List.singleton_append]
    · rwa [hfirst, List.dropLast_concat]
    · intro _
      rw [hfirst, List.getLast?_concat]
  · have hfirst : firstLine rest = rest := by
      simpa [firstLine, lines] using firstLine_append hrest []
    refine ⟨[], ?_, hbefore, ?_, fun h => absurd rfl h⟩
    · rw [hfirst, List.append_nil]
    · rw [hfirst]
      exact fun hmem => hrest ((List.dropLast_sublist rest).subset hmem)

/-- An offset that does not come to the end of a text falls on a character of it. -/
theorem exists_character {offset : Nat} (h : offset < byteLength text) :
    ∃ front c rest k, text = front ++ c :: rest ∧ k < c.utf8Size ∧
      offset = byteLength front + k := by
  induction text generalizing offset with
  | nil => exact absurd h (Nat.not_lt_zero _)
  | cons c cs ih =>
    rw [byteLength_cons] at h
    rcases Nat.lt_or_ge offset c.utf8Size with hk | hk
    · exact ⟨[], c, cs, offset, rfl, hk, (Nat.zero_add _).symm⟩
    · obtain ⟨front, d, rest, k, rfl, hk', hoffset⟩ := @ih (offset - c.utf8Size) (by omega)
      refine ⟨c :: front, d, rest, k, rfl, hk', ?_⟩
      rw [byteLength_cons]
      omega

/-- The line of a character is found for each of its bytes. -/
theorem lineAt_character (hbefore : EndsLine before) (hfront : '\n' ∉ front) (rest : List Char)
    {k : Nat} (hk : k < c.utf8Size) :
    lineAt (before ++ (front ++ c :: rest)) (byteLength before + (byteLength front + k)) =
      some ⟨before.count '\n' + 1, firstLine (front ++ c :: rest), byteLength front + k⟩ := by
  have hline : byteLength front + k < byteLength (firstLine (front ++ c :: rest)) := by
    obtain ⟨more, hmore⟩ := List.head?_eq_some_iff.mp (head?_firstLine (c :: rest))
    rw [firstLine_append hfront, hmore, byteLength_append, byteLength_cons]
    omega
  have hlines : lines (front ++ c :: rest) =
      firstLine (front ++ c :: rest) :: (lines (front ++ c :: rest)).tail :=
    lines_eq_cons (by simp)
  have hpassed := findLine_append (getLast?_of_mem_lines hbefore) 1 (byteLength front + k)
    (lines (front ++ c :: rest))
  rw [flatten_lines, length_lines hbefore] at hpassed
  rw [lineAt, lines_append hbefore, hpassed, hlines, findLine, if_pos hline, Nat.add_comm 1]

theorem findLine_eq_none : ∀ {ls : List (List Char)} {number offset : Nat},
    byteLength ls.flatten < offset → findLine number offset ls = none
  | [], number, offset, h => if_neg (Nat.ne_of_gt h)
  | l :: ls, number, offset, h => by
    rw [List.flatten_cons, byteLength_append] at h
    rw [findLine, if_neg (by omega), if_neg (by omega)]
    exact findLine_eq_none (by omega)

/-- A place is found for the offsets up to the end of a text. -/
theorem lineAt_eq_none_iff {offset : Nat} :
    lineAt text offset = none ↔ (bytes text).length < offset := by
  rw [length_bytes]
  constructor
  · intro hnone
    by_contra hle
    have hsome := isSome_lineAt (Nat.le_of_not_lt hle)
    rw [hnone] at hsome
    cases hsome
  · intro hlt
    exact findLine_eq_none (by rwa [flatten_lines])

/-- Up to a byte of a character there is no newline on its line. -/
theorem newlineByte_notMem_take (hfront : '\n' ∉ front) {k : Nat} (hk : k < c.utf8Size)
    (more : List Char) :
    newlineByte ∉ (bytes (front ++ c :: more)).take (byteLength front + k) := by
  have hcharacter : (bytes (c :: more)).take k = (String.utf8EncodeChar c).take k :=
    List.take_append_of_le_length (by rw [String.length_utf8EncodeChar]; omega)
  rw [bytes_append, ← length_bytes, List.take_length_add_append, hcharacter, List.mem_append,
    not_or]
  refine ⟨?_, fun hmem => ?_⟩
  · rw [← List.count_eq_zero, count_bytes]
    exact List.count_eq_zero_of_not_mem hfront
  · by_cases hc : c = '\n'
    · subst hc
      obtain rfl : k = 0 := Nat.lt_one_iff.mp hk
      cases hmem
    · exact newlineByte_notMem hc (List.mem_of_mem_take hmem)

theorem LinePlace.Marks.of_parts {line behind : List Char} {column : Nat}
    (hline : WholeLine before line behind) (hcolumn : column ≤ byteLength line)
    (hfree : newlineByte ∉ (bytes line).take column)
    (hempty : line = [] ↔ byteLength before + column = byteLength (before ++ (line ++ behind)) ∧
      EndsLine (before ++ (line ++ behind))) :
    Marks ⟨before.count '\n' + 1, line, column⟩ (before ++ (line ++ behind))
      (byteLength before + column) := by
  have htake : (bytes (before ++ (line ++ behind))).take (byteLength before + column) =
      bytes before ++ (bytes line).take column := take_bytes hcolumn behind
  refine ⟨?_, ⟨before, behind, rfl, hline, rfl, ?_, htake⟩, ?_⟩
  · rw [htake, List.count_append, count_bytes, List.count_eq_zero_of_not_mem hfree, Nat.add_zero]
  · rwa [length_bytes]
  · rwa [length_bytes]

/-- What is found says all that a place can say about its offset. -/
theorem marks_of_lineAt {offset : Nat} {place : LinePlace} (h : lineAt text offset = some place) :
    place.Marks text offset := by
  have hle : offset ≤ byteLength text := by
    by_contra hlt
    rw [← length_bytes] at hlt
    rw [lineAt_eq_none_iff.mpr (Nat.lt_of_not_le hlt)] at h
    cases h
  rcases Nat.lt_or_eq_of_le hle with hlt | rfl
  · -- the place is on a character
    obtain ⟨passed, c, rest, k, rfl, hk, rfl⟩ := exists_character hlt
    obtain ⟨before, front, rfl, hbefore, hfront⟩ := exists_endsLine passed
    rw [List.append_assoc, byteLength_append, Nat.add_assoc] at *
    rw [lineAt_character hbefore hfront rest hk] at h
    obtain rfl := Option.some.inj h
    obtain ⟨more, hmore⟩ := List.head?_eq_some_iff.mp (head?_firstLine (c :: rest))
    obtain ⟨behind, hrest, hline⟩ := exists_wholeLine hbefore (front ++ c :: rest)
    rw [firstLine_append hfront, hmore] at *
    rw [hrest] at hlt ⊢
    refine .of_parts hline ?_ (newlineByte_notMem_take hfront hk more) ?_
    · rw [byteLength_append, byteLength_cons]
      omega
    · exact iff_of_false (by simp) fun hend => Nat.ne_of_lt hlt hend.1
  · -- the place is behind all of them
    obtain ⟨before, front, rfl, hbefore, hfront⟩ := exists_endsLine text
    have hend : lineAt (before ++ front) (byteLength (before ++ front)) =
        some ⟨before.count '\n' + 1, front, byteLength front⟩ := by
      simpa [firstLine, lines] using lineAt_append hbefore hfront []
    obtain rfl := Option.some.inj (h.symm.trans hend)
    have hline : WholeLine before front [] :=
      ⟨hbefore, fun hmem => hfront ((List.dropLast_sublist front).subset hmem), absurd rfl⟩
    have hfree : newlineByte ∉ (bytes front).take (byteLength front) := by
      rw [← length_bytes, List.take_length, ← List.count_eq_zero, count_bytes]
      exact List.count_eq_zero_of_not_mem hfront
    have hmarks := LinePlace.Marks.of_parts hline (Nat.le_refl _) hfree
    rw [List.append_nil, ← byteLength_append] at hmarks
    refine hmarks ⟨?_, fun hends => List.eq_nil_iff_forall_not_mem.mpr fun c hc => ?_⟩
    · rintro rfl
      rw [List.append_nil]
      exact ⟨rfl, hbefore⟩
    · -- the last character of the line would be a newline
      have hne : front ≠ [] := List.ne_nil_of_mem hc
      have hlast : front.getLast hne = '\n' := hends.2 _ (by
        simp [List.getLast?_append, List.getLast?_eq_some_getLast hne])
      exact hfront (hlast ▸ List.getLast_mem hne)

/-! ## The order of places -/

/-- Whole lines at the front of a text are known by their number. -/
theorem EndsLine.eq_of_count {before before' : List Char} (h : EndsLine before)
    (h' : EndsLine before') (hfront : before <+: text) (hfront' : before' <+: text)
    (hcount : before.count '\n' = before'.count '\n') : before = before' := by
  have hgrows : ∀ {front more : List Char}, EndsLine (front ++ more) →
      (front ++ more).count '\n' = front.count '\n' → front ++ more = front := by
    intro front more hends hsame
    rw [List.count_append, Nat.add_eq_left, List.count_eq_zero] at hsame
    rcases List.eq_nil_or_concat more with rfl | ⟨most, last, rfl⟩
    · rw [List.append_nil]
    · have hlast : last = '\n' := hends last (by simp)
      simp [hlast] at hsame
  rcases List.prefix_or_prefix_of_prefix hfront hfront' with ⟨more, rfl⟩ | ⟨more, rfl⟩
  · exact (hgrows h' hcount.symm).symm
  · exact hgrows h hcount

/-- On one line, places are as far from its begin as their offsets say. -/
theorem LinePlace.Marks.column_eq {i j : Nat} {p q : LinePlace} (hp : p.Marks text i)
    (hq : q.Marks text j) (hi : i ≤ (bytes text).length) (hj : j ≤ (bytes text).length)
    (hnumber : p.number = q.number) : p.column + j = q.column + i := by
  obtain ⟨before, behind, htext, hline, hcount, hcolumn, htake⟩ := hp.line
  obtain ⟨before', behind', htext', hline', hcount', hcolumn', htake'⟩ := hq.line
  have hsame : before = before' := hline.endsLine.eq_of_count hline'.endsLine
    ⟨_, htext.symm⟩ ⟨_, htext'.symm⟩ (by omega)
  have hlength := congrArg List.length htake
  have hlength' := congrArg List.length htake'
  rw [List.length_append, List.length_take_of_le hi, List.length_take_of_le hcolumn] at hlength
  rw [List.length_append, List.length_take_of_le hj, List.length_take_of_le hcolumn', ← hsame]
    at hlength'
  omega

/-- A larger offset is on a later line, or further behind on the same line. -/
theorem LinePlace.Marks.lt_of_lt {i j : Nat} {p q : LinePlace} (hp : p.Marks text i)
    (hq : q.Marks text j) (hj : j ≤ (bytes text).length) (hlt : i < j) :
    toLex (p.number, p.column) < toLex (q.number, q.column) := by
  have hcount : p.number ≤ q.number := by
    rw [hp.number, hq.number]
    exact Nat.succ_le_succ ((List.take_prefix_take_left hlt.le).sublist.count_le newlineByte)
  rw [Prod.Lex.toLex_lt_toLex]
  rcases Nat.lt_or_eq_of_le hcount with hnumber | hnumber
  · exact .inl hnumber
  · have hcolumn := hp.column_eq hq (hlt.le.trans hj) hj hnumber
    exact .inr ⟨hnumber, by omega⟩

/-- **Lines and offsets**. A place is found for an offset exactly if it is no larger than the number
of bytes of the text, and it has the number of its line, the whole line, and the bytes before it on
the line. Places are in the order of their offsets, first by the line and then by the column, so no
two offsets have the same line and column. -/
theorem lineAt_inverts_offsets (text : List Char) :
    (∀ offset, lineAt text offset = none ↔ (bytes text).length < offset) ∧
    (∀ offset place, lineAt text offset = some place → place.Marks text offset) ∧
    ∀ i j p q, lineAt text i = some p → lineAt text j = some q →
      (i < j ↔ toLex (p.number, p.column) < toLex (q.number, q.column)) ∧
        (i = j ↔ (p.number, p.column) = (q.number, q.column)) := by
  refine ⟨fun offset => lineAt_eq_none_iff, fun offset place => marks_of_lineAt,
    fun i j p q hp hq => ?_⟩
  have hle : ∀ {offset place}, lineAt text offset = some place → offset ≤ (bytes text).length := by
    intro offset place h
    by_contra hlt
    rw [lineAt_eq_none_iff.mpr (Nat.lt_of_not_le hlt)] at h
    cases h
  have hpmarks := marks_of_lineAt hp
  have hqmarks := marks_of_lineAt hq
  rcases Nat.lt_trichotomy i j with hlt | rfl | hgt
  · have hplaces := hpmarks.lt_of_lt hqmarks (hle hq) hlt
    exact ⟨iff_of_true hlt hplaces, iff_of_false hlt.ne fun heq => hplaces.ne (congrArg toLex heq)⟩
  · obtain rfl := Option.some.inj (hp.symm.trans hq)
    exact ⟨iff_of_false (Nat.lt_irrefl i) (lt_irrefl _), iff_of_true rfl rfl⟩
  · have hplaces := hqmarks.lt_of_lt hpmarks (hle hp) hgt
    exact ⟨iff_of_false hgt.not_gt hplaces.not_gt,
      iff_of_false hgt.ne' fun heq => hplaces.ne' (congrArg toLex heq)⟩

/-- The second byte of a character, and the empty line behind the last newline. -/
theorem accented_offsets_inverted :
    LinePlace.Marks ⟨1, ['a', 'é', '\n'], 2⟩ ['a', 'é', '\n'] 2 ∧
      LinePlace.Marks ⟨2, [], 0⟩ ['a', 'é', '\n'] 4 ∧
      lineAt ['a', 'é', '\n'] 5 = none := by
  obtain ⟨hnone, hmarks, -⟩ := lineAt_inverts_offsets ['a', 'é', '\n']
  exact ⟨hmarks 2 _ (by decide), hmarks 4 _ (by decide), (hnone 5).mpr (by decide)⟩

end TeachLang.Text
