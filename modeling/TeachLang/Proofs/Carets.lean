import TeachLang.Proofs.Places
import Mathlib.Data.List.TakeWhile

/-!
# Carets

A rendered diagnostic points at a place with a caret below the line of the place. A person counts
characters there, while a position counts bytes. `Diagnostic.Spot` divides a text around a place as
a person finds it: whole lines, the indentation of the line, what is shown of the line up to the
place, and what is behind. The shown part is what stands between the bar and the place, so the
caret belongs behind as many dashes as it has characters.

There are as many dashes as it has bytes. `Diagnostic.caret_under_place_iff` says what comes of
that: the caret is under the place if and only if the shown part is all ASCII, and otherwise it is
too far to the right by the bytes that the other characters take beyond one.
-/

namespace TeachLang

/-! ## Cutting a text into lines -/

namespace Text

/-- A text that nothing stands behind the last newline of, so that a line starts behind it. -/
def EndsLine (text : List Char) : Prop :=
  ∀ c ∈ text.getLast?, c = '\n'

/-- The first line of a text, with the newline that closes it. -/
def firstLine (text : List Char) : List Char :=
  (lines text).head?.getD []

variable {before front text : List Char} {ls : List (List Char)} {c : Char}

theorem EndsLine.tail (h : EndsLine (c :: text)) : EndsLine text := by
  cases text with
  | nil => exact nofun
  | cons d ds =>
    intro e he
    exact h e (by rwa [List.getLast?_cons_cons])

theorem EndsLine.ne_nil (h : EndsLine (c :: text)) (hc : c ≠ '\n') : text ≠ [] := by
  rintro rfl
  exact hc (h c rfl)

theorem lines_newline (text : List Char) : lines ('\n' :: text) = ['\n'] :: lines text :=
  if_pos rfl

theorem lines_cons (hc : c ≠ '\n') (text : List Char) :
    lines (c :: text) = (c :: firstLine text) :: (lines text).tail := by
  rw [lines, if_neg hc, firstLine]
  cases lines text <;> rfl

theorem lines_ne_nil (h : text ≠ []) : lines text ≠ [] := by
  intro hlines
  apply h
  rw [← flatten_lines text, hlines, List.flatten_nil]

theorem lines_eq_cons (h : text ≠ []) : lines text = firstLine text :: (lines text).tail := by
  obtain ⟨l, ls, hlines⟩ := List.exists_cons_of_ne_nil (lines_ne_nil h)
  rw [firstLine, hlines]
  rfl

/-- The lines of a text that ends one are cut apart from what stands behind. -/
theorem lines_append (h : EndsLine before) (rest : List Char) :
    lines (before ++ rest) = lines before ++ lines rest := by
  induction before with
  | nil => rfl
  | cons c cs ih =>
    by_cases hc : c = '\n'
    · subst hc
      rw [List.cons_append, lines_newline, lines_newline, ih h.tail, List.cons_append]
    · obtain ⟨l, ls, hlines⟩ := List.exists_cons_of_ne_nil (lines_ne_nil (h.ne_nil hc))
      rw [List.cons_append, lines_cons hc, lines_cons hc, firstLine, firstLine, ih h.tail, hlines]
      rfl

theorem getLast?_of_mem_lines (h : EndsLine text) : ∀ l ∈ lines text, l.getLast? = some '\n' := by
  induction text with
  | nil => exact nofun
  | cons c cs ih =>
    by_cases hc : c = '\n'
    · subst hc
      rw [lines_newline]
      exact List.forall_mem_cons.mpr ⟨rfl, ih h.tail⟩
    · have hcs := h.ne_nil hc
      have hrest := ih h.tail
      rw [lines_eq_cons hcs] at hrest
      obtain ⟨hfirst, hothers⟩ := List.forall_mem_cons.mp hrest
      rw [lines_cons hc]
      exact List.forall_mem_cons.mpr ⟨by rw [List.getLast?_cons, hfirst]; rfl, hothers⟩

/-- Each newline closes a line. -/
theorem length_lines (h : EndsLine text) : (lines text).length = text.count '\n' := by
  induction text with
  | nil => rfl
  | cons c cs ih =>
    by_cases hc : c = '\n'
    · subst hc
      rw [lines_newline, List.length_cons, ih h.tail, List.count_cons_self]
    · rw [lines_cons hc, List.count_cons_of_ne hc, ← ih h.tail,
        lines_eq_cons (h.ne_nil hc)]
      rfl

/-- What no newline is in belongs to the line it is followed by. -/
theorem firstLine_append (h : '\n' ∉ front) (rest : List Char) :
    firstLine (front ++ rest) = front ++ firstLine rest := by
  induction front with
  | nil => rfl
  | cons c cs ih =>
    obtain ⟨hc, hcs⟩ := List.ne_and_not_mem_of_not_mem_cons h
    rw [List.cons_append, firstLine, lines_cons hc.symm, List.head?_cons, Option.getD_some, ih hcs,
      List.cons_append]

theorem tail_lines_append (h : '\n' ∉ front) (rest : List Char) :
    (lines (front ++ rest)).tail = (lines rest).tail := by
  induction front with
  | nil => rfl
  | cons c cs ih =>
    obtain ⟨hc, hcs⟩ := List.ne_and_not_mem_of_not_mem_cons h
    rw [List.cons_append, lines_cons hc.symm, List.tail_cons, ih hcs]

/-- A newline closes the line it is put behind. -/
theorem lines_concat (h : '\n' ∉ front) : lines (front ++ ['\n']) = [front ++ ['\n']] := by
  rw [lines_eq_cons (List.concat_ne_nil _ _), firstLine_append h, tail_lines_append h]
  rfl

theorem head?_firstLine (text : List Char) : (firstLine text).head? = text.head? := by
  cases text with
  | nil => rfl
  | cons c cs =>
    by_cases hc : c = '\n'
    · subst hc
      rfl
    · rw [firstLine, lines_cons hc]
      rfl

theorem firstLine_ne_nil (h : text ≠ []) : firstLine text ≠ [] := by
  intro hfirst
  apply h
  rw [← List.head?_eq_none_iff, ← head?_firstLine, hfirst, List.head?_nil]

/-- The first line is what stands in front of the first newline, and the newline if there is one. -/
theorem firstLine_eq (text : List Char) :
    firstLine text = text.takeWhile (· != '\n') ∨
      firstLine text = text.takeWhile (· != '\n') ++ ['\n'] := by
  induction text with
  | nil => exact .inl rfl
  | cons c cs ih =>
    by_cases hc : c = '\n'
    · subst hc
      exact .inr rfl
    · have hcons : (c :: cs).takeWhile (· != '\n') = c :: cs.takeWhile (· != '\n') :=
        List.takeWhile_cons_of_pos (bne_iff_ne.mpr hc)
      rw [firstLine, lines_cons hc, hcons]
      exact ih.imp (congrArg (c :: ·)) (congrArg (c :: ·))

theorem trimEnd_append_newline (text : List Char) : trimEnd (text ++ ['\n']) = trimEnd text := by
  rw [trimEnd, List.reverse_concat, List.dropWhile_cons_of_pos (by decide), trimEnd]

/-- What stands in front of a character that is no blank is not trimmed. -/
theorem trimEnd_append_cons (hc : isBlank c = false) (front rest : List Char) :
    trimEnd (front ++ c :: rest) = front ++ c :: trimEnd rest := by
  have hstop : (c :: front.reverse).dropWhile isBlank = c :: front.reverse :=
    List.dropWhile_cons_of_neg (Bool.eq_false_iff.mp hc)
  have hdrop : (rest.reverse ++ c :: front.reverse).dropWhile isBlank =
      rest.reverse.dropWhile isBlank ++ c :: front.reverse := by
    rw [List.dropWhile_append, hstop]
    split
    · next hblank => rw [List.isEmpty_iff.mp hblank, List.nil_append]
    · rfl
  rw [trimEnd, List.reverse_append, List.reverse_cons, List.append_assoc, List.singleton_append,
    hdrop, List.reverse_append, List.reverse_cons, List.reverse_reverse, List.append_assoc,
    List.singleton_append, trimEnd]

theorem trimEnd_append_firstLine (front rest : List Char) :
    trimEnd (front ++ firstLine rest) = trimEnd (front ++ rest.takeWhile (· != '\n')) := by
  obtain h | h := firstLine_eq rest
  · rw [h]
  · rw [h, ← List.append_assoc, trimEnd_append_newline]

/-! ## Finding the line of a place -/

/-- The walk passes the lines that are closed in front of the place. -/
theorem findLine_append (h : ∀ l ∈ ls, l.getLast? = some '\n') (number offset : Nat)
    (others : List (List Char)) :
    findLine number (byteLength ls.flatten + offset) (ls ++ others) =
      findLine (number + ls.length) offset others := by
  induction ls generalizing number with
  | nil => rw [List.flatten_nil, byteLength_nil, Nat.zero_add]; rfl
  | cons l ls ih =>
    obtain ⟨hl, hls⟩ := List.forall_mem_cons.mp h
    rw [List.flatten_cons, byteLength_append, Nat.add_assoc, List.cons_append, findLine,
      if_neg (by omega), if_neg (fun hlast => hlast.2.2 hl), Nat.add_sub_cancel_left, ih hls,
      List.length_cons, Nat.add_assoc, Nat.add_comm 1]

/-- The walk stops at the line that the place is on. -/
theorem findLine_lines (h : '\n' ∉ front) (number : Nat) (rest : List Char) :
    findLine number (byteLength front) (lines (front ++ rest)) =
      some ⟨number, front ++ firstLine rest, byteLength front⟩ := by
  by_cases htext : front ++ rest = []
  · obtain ⟨rfl, rfl⟩ := List.append_eq_nil_iff.mp htext
    rfl
  rw [lines_eq_cons htext, firstLine_append h, findLine]
  by_cases hrest : rest = []
  · subst hrest
    have hopen : front.getLast? ≠ some '\n' := fun hlast => h (List.mem_of_getLast? hlast)
    rw [tail_lines_append h, firstLine, lines, List.head?_nil, Option.getD_none, List.append_nil,
      if_neg (Nat.lt_irrefl _), if_pos ⟨List.tail_nil, rfl, hopen⟩]
  · have hpos := Nat.pos_of_ne_zero (mt eq_nil_of_byteLength (firstLine_ne_nil hrest))
    rw [if_pos (by rw [byteLength_append]; omega)]

/-- The line of a place between two characters: the lines before it count, and it begins with what
stands behind their last newline. -/
theorem lineAt_append (hbefore : EndsLine before) (hfront : '\n' ∉ front) (rest : List Char) :
    lineAt (before ++ (front ++ rest)) (byteLength (before ++ front)) =
      some ⟨before.count '\n' + 1, front ++ firstLine rest, byteLength front⟩ := by
  have hfind := findLine_append (getLast?_of_mem_lines hbefore) 1 (byteLength front)
    (lines (front ++ rest))
  rw [flatten_lines, length_lines hbefore, findLine_lines hfront, Nat.add_comm 1] at hfind
  rw [lineAt, lines_append hbefore, byteLength_append, hfind]

/-- Every text is whole lines and the beginning of one more. -/
theorem exists_endsLine (text : List Char) :
    ∃ before front, text = before ++ front ∧ EndsLine before ∧ '\n' ∉ front := by
  induction text with
  | nil => exact ⟨[], [], rfl, nofun, List.not_mem_nil⟩
  | cons c cs ih =>
    obtain ⟨before, front, rfl, hbefore, hfront⟩ := ih
    cases before with
    | nil =>
      by_cases hc : c = '\n'
      · subst hc
        exact ⟨['\n'], front, rfl, fun d hd => (Option.some.inj hd).symm, hfront⟩
      · exact ⟨[], c :: front, rfl, nofun,
          List.not_mem_cons_of_ne_of_not_mem (Ne.symm hc) hfront⟩
    | cons e es =>
      exact ⟨c :: e :: es, front, rfl,
        fun d hd => hbefore d (by rwa [List.getLast?_cons_cons] at hd), hfront⟩

theorem Boundary.of_isValid {source : String} {offset : Nat}
    (h : String.Pos.Raw.IsValid source ⟨offset⟩) : Boundary source.toList offset := by
  obtain ⟨front, back, rfl, hoffset⟩ := String.Pos.Raw.isValid_iff_exists_append.mp h
  refine ⟨front.toList, back.toList, String.toList_append, ?_⟩
  rw [← utf8ByteSize_ofList, String.ofList_toList]
  exact (congrArg String.Pos.Raw.byteIdx hoffset).symm

end Text

/-! ## Places as a person finds them -/

namespace Diagnostic

open Text (EndsLine byteLength firstLine lineAt lines trimEnd)

/-- Among the spaces and tabs that a line begins with, in front of one of them. -/
def InIndent (text : List Char) (offset : Nat) : Prop :=
  ∃ before indent c behind, text = before ++ (indent ++ c :: behind) ∧
    byteLength (before ++ indent) = offset ∧ EndsLine before ∧
    (∀ d ∈ indent, isIndent d) ∧ isIndent c

/-- The parts of a text around a place. -/
structure Spot (text : List Char) (offset : Nat) where
  /-- the lines before the line of the place -/
  before : List Char
  /-- the spaces and tabs that the line begins with -/
  indent : List Char
  /-- the line from there to the place -/
  shown : List Char
  /-- what the place is in front of -/
  behind : List Char
  /-- the parts are put together to the text -/
  text_eq : text = before ++ (indent ++ (shown ++ behind))
  /-- the place is between the last two -/
  offset_eq : byteLength (before ++ (indent ++ shown)) = offset
  /-- a line begins behind the lines before -/
  endsLine : EndsLine before
  /-- and no other begins up to the place -/
  oneLine : '\n' ∉ indent ++ shown
  /-- the indentation is one -/
  indented : ∀ c ∈ indent, isIndent c
  /-- and it does not go on -/
  dedented : ∀ c ∈ (shown ++ behind).head?, isIndent c = false

/-- A place in front of another character is in no indentation. -/
theorem not_inIndent {c : Char} (hc : isIndent c = false) (front rest : List Char) :
    ¬ InIndent (front ++ c :: rest) (byteLength front) := by
  rintro ⟨before, indent, d, behind, htext, hoffset, -, -, hd⟩
  rw [← List.append_assoc] at htext
  obtain ⟨-, hrest⟩ := Text.append_inj_of_byteLength htext hoffset.symm
  obtain ⟨rfl, -⟩ := List.cons.inj hrest
  exact absurd hd (Bool.eq_false_iff.mp hc)

namespace Spot

variable {text : List Char} {offset : Nat} (spot : Spot text offset)

/-- The number of the line, as it is written. -/
def number : String := toString (spot.before.count '\n' + 1)

/-- The row that shows the line. -/
def row : String :=
  spot.number ++ " | " ++
    String.ofList (trimEnd (spot.shown ++ spot.behind.takeWhile (· != '\n')))

/-- Characters in front of the place, in the row that shows its line. -/
def column : Nat := (spot.number ++ " | " ++ String.ofList spot.shown).length

/-- The row below, which ends in the caret. -/
def caretRow : String :=
  gutter spot.number ++ " " ++ String.ofList (List.replicate (byteLength spot.shown) '-') ++ "^"

/-- Every place between two characters that is not in an indentation has such parts. -/
theorem nonempty (hplace : Text.Boundary text offset) (hindent : ¬ InIndent text offset) :
    Nonempty (Spot text offset) := by
  obtain ⟨front, behind, rfl, rfl⟩ := hplace
  obtain ⟨before, line, rfl, hbefore, hline⟩ := Text.exists_endsLine front
  have hparts : line = line.takeWhile isIndent ++ line.dropWhile isIndent :=
    List.takeWhile_append_dropWhile.symm
  refine ⟨before, line.takeWhile isIndent, line.dropWhile isIndent, behind, ?_, ?_, hbefore, ?_,
    fun c => List.mem_takeWhile_imp, ?_⟩
  · rw [← List.append_assoc (List.takeWhile _ _), ← hparts, List.append_assoc]
  · rw [← hparts]
  · rwa [← hparts]
  · intro c hc
    cases hshown : line.dropWhile isIndent with
    | cons d ds =>
      rw [hshown] at hc
      obtain rfl := Option.some.inj hc
      have hhead := List.head?_dropWhile_not isIndent line
      rwa [hshown] at hhead
    | nil =>
      -- the line is all indentation up to the place, so the place is behind all of it
      rw [hshown] at hc
      obtain ⟨rest, rfl⟩ := List.head?_eq_some_iff.mp hc
      refine Bool.eq_false_iff.mpr fun hindented => hindent ⟨before, line, c, rest, ?_⟩
      exact ⟨List.append_assoc _ _ _, rfl, hbefore, List.dropWhile_eq_nil_iff.mp hshown, hindented⟩

theorem column_eq : spot.column = spot.number.length + 3 + spot.shown.length := by
  have hshown := String.length_ofList (l := spot.shown)
  rw [column, String.length_append, String.length_append, hshown]
  rfl

/-- What the place is in front of stands at its column, unless it may be trimmed. -/
theorem getElem?_row {c : Char} (hc : c ∈ spot.behind.head?) (hblank : Text.isBlank c = false) :
    spot.row.toList[spot.column]? = some c := by
  obtain ⟨rest, hbehind⟩ := List.head?_eq_some_iff.mp hc
  have hnewline : (c != '\n') = true := by
    rw [bne_iff_ne]
    rintro rfl
    exact absurd hblank (by decide)
  have htake : (c :: rest).takeWhile (· != '\n') = c :: rest.takeWhile (· != '\n') :=
    List.takeWhile_cons_of_pos hnewline
  have hrow : spot.row.toList = (spot.number ++ " | " ++ String.ofList spot.shown).toList ++
      c :: trimEnd (rest.takeWhile (· != '\n')) := by
    rw [row, hbehind, htake, Text.trimEnd_append_cons hblank]
    simp only [String.toList_append, String.toList_ofList, List.append_assoc]
  rw [hrow, column, ← String.length_toList, List.getElem?_append_right (Nat.le_refl _),
    Nat.sub_self]
  rfl

/-- The line of the place is found, and the place on it. -/
theorem lineAt_eq : lineAt text offset =
    some ⟨spot.before.count '\n' + 1, spot.indent ++ (spot.shown ++ firstLine spot.behind),
      byteLength (spot.indent ++ spot.shown)⟩ := by
  have h := Text.lineAt_append spot.endsLine spot.oneLine spot.behind
  rw [List.append_assoc spot.indent, List.append_assoc spot.indent] at h
  rwa [← spot.text_eq, spot.offset_eq] at h

/-- What is shown of the line begins with no space or tab. -/
theorem head?_line : ∀ c ∈ (spot.shown ++ firstLine spot.behind).head?, isIndent c = false := by
  have h := spot.dedented
  rwa [List.head?_append, ← Text.head?_firstLine spot.behind, ← List.head?_append] at h

theorem takeWhile_line :
    (spot.indent ++ (spot.shown ++ firstLine spot.behind)).takeWhile isIndent = spot.indent := by
  have h := spot.head?_line
  rw [List.takeWhile_append_of_pos spot.indented]
  cases hline : spot.shown ++ firstLine spot.behind with
  | nil => rw [List.takeWhile_nil, List.append_nil]
  | cons c cs =>
    rw [hline] at h
    rw [List.takeWhile_cons_of_neg (Bool.eq_false_iff.mp (h c rfl)), List.append_nil]

theorem dropWhile_line :
    (spot.indent ++ (spot.shown ++ firstLine spot.behind)).dropWhile isIndent =
      spot.shown ++ firstLine spot.behind := by
  have h := List.takeWhile_append_dropWhile
    (p := isIndent) (l := spot.indent ++ (spot.shown ++ firstLine spot.behind))
  rw [spot.takeWhile_line] at h
  exact List.append_cancel_left h

/-- Spaces and tabs take one byte each. -/
theorem byteLength_indent : byteLength spot.indent = spot.indent.length := by
  refine (Text.byteLength_eq_length_iff _).mpr fun c hc => ?_
  obtain hc | hc := (Bool.or_eq_true _ _).mp (spot.indented c hc)
  · rw [beq_iff_eq.mp hc]
    decide
  · rw [beq_iff_eq.mp hc]
    decide

end Spot

/-- Below the bar are the row of the line and the row of the caret. -/
theorem render_eq (d : Diagnostic) {source : String} (spot : Spot source.toList d.position.offset)
    (file : String) : d.render source file =
      d.headline ++ "-> " ++ file ++ "\n" ++ gutter spot.number ++ "\n" ++ spot.row ++ "\n" ++
        spot.caretRow ++ "\n" := by
  have hdashes : byteLength (spot.indent ++ spot.shown) - spot.indent.length =
      byteLength spot.shown := by
    rw [Text.byteLength_append, spot.byteLength_indent, Nat.add_sub_cancel_left]
  rw [render, spot.lineAt_eq]
  simp only [excerpt, caret, spot.takeWhile_line, spot.dropWhile_line,
    Text.trimEnd_append_firstLine, hdashes, Spot.row, Spot.caretRow, Spot.number,
    String.append_assoc]

/-- Characters in front of the caret, in the last row of what is shown. -/
def caretColumn (output : String) : Nat :=
  (((lines output.toList).getLast?.getD []).takeWhile (· != '^')).length

theorem caretColumn_append {row : List Char} (hline : '\n' ∉ row) (hrow : '^' ∉ row)
    (above : String) : caretColumn (above ++ "\n" ++ (String.ofList row ++ "^") ++ "\n") =
      row.length := by
  have hends : EndsLine (above.toList ++ ['\n']) := by
    intro c hc
    rw [List.getLast?_concat] at hc
    exact (Option.some.inj hc).symm
  have hclosed : '\n' ∉ row ++ ['^'] := by
    intro hmem
    obtain hmem | hmem := List.mem_append.mp hmem
    · exact hline hmem
    · exact absurd hmem (by decide)
  have hlines : lines (above ++ "\n" ++ (String.ofList row ++ "^") ++ "\n").toList =
      lines (above.toList ++ ['\n']) ++ [row ++ ['^'] ++ ['\n']] := by
    rw [← Text.lines_concat hclosed, ← Text.lines_append hends]
    simp only [String.toList_append, String.toList_ofList, List.append_assoc]
    rfl
  have hpos : ∀ c ∈ row, (c != '^') = true := fun c hc => bne_iff_ne.mpr fun h => hrow (h ▸ hc)
  rw [caretColumn, hlines, List.getLast?_concat, Option.getD_some, List.append_assoc,
    List.takeWhile_append_of_pos hpos]
  rw [show (['^'] ++ ['\n']).takeWhile (· != '^') = [] from rfl, List.append_nil]

/-- In the last row are the bar, behind the blanks as wide as the number and the separator of the
row above, and a dash for each byte. -/
theorem caretColumn_render (d : Diagnostic) {source : String}
    (spot : Spot source.toList d.position.offset) (file : String) :
    caretColumn (d.render source file) = spot.number.length + 3 + byteLength spot.shown := by
  let blanks := List.replicate (spot.number.length + 1) ' '
  let dashes := List.replicate (byteLength spot.shown) '-'
  have hfree : ∀ c, c ≠ ' ' → c ≠ '|' → c ≠ '-' → c ∉ blanks ++ ['|', ' '] ++ dashes := by
    intro c hblank hbar hdash hc
    simp only [blanks, dashes, List.mem_append, List.mem_replicate, List.mem_cons,
      List.not_mem_nil, or_false] at hc
    obtain (⟨-, hc⟩ | hc | hc) | ⟨-, hc⟩ := hc
    exacts [hblank hc, hbar hc, hblank hc, hdash hc]
  have hcaretRow : spot.caretRow = String.ofList (blanks ++ ['|', ' '] ++ dashes) ++ "^" := by
    simp only [Spot.caretRow, gutter, String.ofList_append, blanks, dashes, String.append_assoc]
    rfl
  rw [render_eq, hcaretRow, caretColumn_append (hfree '\n' (by decide) (by decide) (by decide))
    (hfree '^' (by decide) (by decide) (by decide))]
  simp only [blanks, dashes, List.length_append, List.length_replicate, List.length_cons,
    List.length_nil]

/-- **Where the caret is**. Every diagnostic at a place between two characters of a text, and not in
the indentation of a line, is shown with the row of the line and the row of the caret below it. In
the row of the line, what the place is in front of has its column. The caret is further right by the
bytes that the characters shown in front of the place take beyond one each, and so it is under the
place if and only if they are all ASCII. -/
theorem caret_under_place_iff {d : Diagnostic} {source : String} (file : String)
    (hplace : String.Pos.Raw.IsValid source ⟨d.position.offset⟩)
    (hindent : ¬ InIndent source.toList d.position.offset) :
    Nonempty (Spot source.toList d.position.offset) ∧
      ∀ spot : Spot source.toList d.position.offset,
        d.render source file = d.headline ++ "-> " ++ file ++ "\n" ++ gutter spot.number ++ "\n" ++
          spot.row ++ "\n" ++ spot.caretRow ++ "\n" ∧
        (∀ c ∈ spot.behind.head?, Text.isBlank c = false →
          spot.row.toList[spot.column]? = some c) ∧
        caretColumn (d.render source file) + spot.shown.length =
          spot.column + byteLength spot.shown ∧
        (caretColumn (d.render source file) = spot.column ↔ ∀ c ∈ spot.shown, c.toNat < 128) := by
  refine ⟨Spot.nonempty (Text.Boundary.of_isValid hplace) hindent, fun spot => ?_⟩
  have hcaret := caretColumn_render d spot file
  have hcolumn := spot.column_eq
  refine ⟨render_eq d spot file, fun c => spot.getElem?_row, by omega, ?_⟩
  rw [← Text.byteLength_eq_length_iff]
  omega

/-- A program with an undefined name on an indented line. -/
def returning : String := "DEF main(): Integer DO\n    RETURN y;\nEND\n"

/-- What is wrong with it. -/
def undefinedResult : Diagnostic := ⟨.undefinedName "y", ⟨34, "main.plc"⟩⟩

/-- The place of the name. -/
def returningSpot : Spot returning.toList 34 where
  before := "DEF main(): Integer DO\n".toList
  indent := "    ".toList
  shown := "RETURN ".toList
  behind := "y;\nEND\n".toList
  text_eq := by decide +kernel
  offset_eq := by decide +kernel
  endsLine := fun _ h => (Option.some.inj h).symm
  oneLine := by decide +kernel
  indented := List.all_eq_true.mp (by decide +kernel)
  dedented := fun _ h => Option.some.inj h ▸ rfl

theorem returning_caret_under_place : String.Pos.Raw.IsValid returning ⟨34⟩ ∧
    ¬ InIndent returning.toList 34 ∧ returningSpot.row.toList[returningSpot.column]? = some 'y' ∧
    caretColumn (undefinedResult.render returning "main.plc") = returningSpot.column := by
  have hplace : String.Pos.Raw.IsValid returning ⟨34⟩ :=
    Text.Boundary.isValid ⟨returning.toList.take 34, _, (List.take_append_drop 34 _).symm,
      by decide +kernel⟩
  have hindent : ¬ InIndent returning.toList 34 :=
    not_inIndent (c := 'y') rfl (returning.toList.take 34) ";\nEND\n".toList
  have hascii : ∀ c ∈ returningSpot.shown, c.toNat < 128 :=
    (Text.byteLength_eq_length_iff _).mp (by decide +kernel)
  have h := (caret_under_place_iff (d := undefinedResult) "main.plc" hplace hindent).2 returningSpot
  exact ⟨hplace, hindent, h.2.1 'y' rfl rfl, h.2.2.2.mpr hascii⟩

/-- A string with a character of two bytes, and behind it a character that no token starts with. -/
def accented : String := "\"é\"#"

/-- What is wrong with it. -/
def strayHash : Diagnostic := ⟨.unrecognisedToken "#", ⟨4, "test.plc"⟩⟩

/-- The place of that character. -/
def accentedSpot : Spot accented.toList 4 where
  before := []
  indent := []
  shown := "\"é\"".toList
  behind := ['#']
  text_eq := by decide +kernel
  offset_eq := by decide +kernel
  endsLine := nofun
  oneLine := by decide +kernel
  indented := nofun
  dedented := fun _ h => Option.some.inj h ▸ rfl

/-- The caret is one dash too far to the right here. -/
theorem accented_caret_misplaced :
    Token.tokenize accented "test.plc" = .error strayHash ∧
      String.Pos.Raw.IsValid accented ⟨4⟩ ∧ ¬ InIndent accented.toList 4 ∧
      strayHash.render accented "test.plc" =
        "Error: UnrecognisedToken\n-> test.plc\n  |\n1 | \"é\"#\n  | ----^\n" ∧
      accentedSpot.row.toList[accentedSpot.column]? = some '#' ∧
      ¬ caretColumn (strayHash.render accented "test.plc") = accentedSpot.column := by
  have hplace : String.Pos.Raw.IsValid accented ⟨4⟩ :=
    Text.Boundary.isValid ⟨"\"é\"".toList, ['#'], by decide +kernel, by decide +kernel⟩
  have hindent : ¬ InIndent accented.toList 4 :=
    not_inIndent (c := '#') rfl "\"é\"".toList []
  refine ⟨by decide +kernel, hplace, hindent, by decide +kernel, by decide +kernel, ?_⟩
  rw [caretColumn_render strayHash accentedSpot]
  decide +kernel

end Diagnostic

end TeachLang
