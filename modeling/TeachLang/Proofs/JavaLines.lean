import TeachLang.Proofs.Carets
import TeachLang.Proofs.JavaScan

/-!
# The layout of emitted Java

Emission counts the braces that a line stands in, and the scanner of Java finds them in the text.
`Java.Lays` says that the two agree, line for line: each line is as deep as the braces that are open
before it. Emission puts lines together in few ways, and each of them keeps to this. Whatever is
laid so is `Java.WellLaid` as a text.
-/

namespace TeachLang

namespace Text

variable {front rest before behind line : List Char}

theorem EndsLine.of_append (h : EndsLine (before ++ rest)) : EndsLine rest := by
  induction before with
  | nil => exact h
  | cons c cs ih => exact ih h.tail

theorem EndsLine.eq_nil (h : EndsLine before) (hline : '\n' ∉ before) : before = [] := by
  by_contra hne
  exact hline (h _ (List.getLast?_eq_some_getLast hne) ▸ List.getLast_mem hne)

/-- A line ends at the first newline. -/
theorem line_unique (hfront : '\n' ∉ front) (hline : '\n' ∉ line)
    (hbehind : ∀ c ∈ behind.head?, c = '\n') (h : front ++ '\n' :: rest = line ++ behind) :
    front = line := by
  have hkeep : ∀ {cs : List Char}, '\n' ∉ cs → ∀ c ∈ cs, (c != '\n') = true := by
    intro cs hcs c hc
    rw [bne_iff_ne]
    rintro rfl
    exact hcs hc
  have hleft : (front ++ '\n' :: rest).takeWhile (· != '\n') = front :=
    takeWhile_run (hkeep hfront) fun c hc => by
      obtain rfl := Option.some.inj hc
      rfl
  have hright : (line ++ behind).takeWhile (· != '\n') = line :=
    takeWhile_run (hkeep hline) fun c hc => by
      rw [hbehind c hc]
      rfl
  rw [← hleft, h, hright]

/-- A line that does not start at the start of a text starts behind its first newline. -/
theorem passed_line (hfront : '\n' ∉ front) (hbefore : EndsLine before)
    (h : front ++ '\n' :: rest = before ++ behind) :
    before = [] ∨ ∃ passed, before = front ++ '\n' :: passed ∧ EndsLine passed ∧
      rest = passed ++ behind := by
  rcases List.append_eq_append_iff.mp h with ⟨passed, rfl, hpassed⟩ | ⟨later, rfl, -⟩
  · cases passed with
    | nil =>
      rw [List.append_nil] at hbefore ⊢
      exact .inl (hbefore.eq_nil hfront)
    | cons c passed =>
      obtain ⟨rfl, rfl⟩ := List.cons.inj hpassed
      exact .inr ⟨passed, rfl, hbefore.of_append.tail, rfl⟩
  · exact .inl (hbefore.eq_nil fun hline => hfront (List.mem_append_left _ hline))

end Text

namespace Java

variable {due due' mid : List Char} {ls ms ns : List (List Char)} {lines more : List Line}
  {line : Line} {depth : Nat} {s : Scanner} {text : String}

/-! ## Texts -/

/-- How deep a line stands that begins with `c`: in all braces that are open, but a brace that
closes a block stands outside of it. -/
def depthAt (due : List Char) (c : Char) : Nat := due.count '\x7d' - if c = '\x7d' then 1 else 0

/-- From the place that a scanner has come to, every line of a text starts in code, and all that is
not empty is indented by four blanks for each brace. -/
def Indented (s : Scanner) (text : List Char) : Prop :=
  ∀ before line behind, text = before ++ (line ++ behind) → Text.EndsLine before → '\n' ∉ line →
    (∀ c ∈ behind.head?, c = '\n') → line ≠ [] →
    ∃ due found c cs, s.run before = some ⟨due, .code, found⟩ ∧
      line = List.replicate (4 * depthAt due c) ' ' ++ c :: cs ∧ c ≠ ' '

/-- A text of Java as it should look, with the literals in it. -/
structure WellLaid (text : List Char) (literals : List (List Char)) : Prop where
  /-- scanned to its end, all brackets and literals are closed, and the literals are these -/
  closed : Scanner.start.run text = some ⟨[], .code, literals⟩
  /-- no quote of its kind stands in a literal, and no line ends there -/
  literals : ∀ l ∈ literals, IsLiteral l
  /-- every line is indented by the braces that it stands in -/
  indented : Indented .start text

theorem indented_nil (s : Scanner) : Indented s [] := by
  intro before line behind htext _ _ _ hline
  simp_all

theorem Indented.cons {front rest : List Char} {after : Scanner} (hfront : '\n' ∉ front)
    (hfirst : front ≠ [] → ∃ due found c cs, s = ⟨due, .code, found⟩ ∧
      front = List.replicate (4 * depthAt due c) ' ' ++ c :: cs ∧ c ≠ ' ')
    (hrun : s.run (front ++ ['\n']) = some after) (hrest : Indented after rest) :
    Indented s (front ++ '\n' :: rest) := by
  intro before line behind htext hbefore hline hbehind hne
  rcases Text.passed_line hfront hbefore htext with rfl | ⟨passed, rfl, hpassed, hrests⟩
  · obtain rfl := Text.line_unique hfront hline hbehind htext
    obtain ⟨due, found, c, cs, rfl, hindent, hc⟩ := hfirst hne
    exact ⟨due, found, c, cs, rfl, hindent, hc⟩
  · obtain ⟨due, found, c, cs, hbehind, hindent⟩ :=
      hrest passed line behind hrests hpassed hline hbehind hne
    refine ⟨due, found, c, cs, ?_, hindent⟩
    rw [List.append_cons, Scanner.run_append, hrun, Option.bind_some, hbehind]

/-! ## Lines -/

/-- A line stands as deep as the braces that are open before it. -/
structure Fits (due : List Char) (line : Line) (due' : List Char) (ls : List (List Char)) :
    Prop where
  /-- it starts with something to see, and is as deep as that should stand -/
  begins : ∃ c cs, line.text.toList = c :: cs ∧ c ≠ ' ' ∧ line.depth = depthAt due c
  /-- what reading it does -/
  reads : Reads due line.text.toList due' ls

/-- Lines that stand as deep as the braces that are open before them, with the brackets that are due
before and behind them and the literals in them. -/
inductive Lays : List Char → List Line → List Char → List (List Char) → Prop where
  /-- no lines -/
  | nil {due : List Char} : Lays due [] due []
  /-- an empty line and others -/
  | blank {due due' : List Char} {lines : List Line} {ls : List (List Char)}
    (others : Lays due lines due' ls) : Lays due (blank :: lines) due' ls
  /-- a line and others -/
  | line {due mid due' : List Char} {line : Line} {lines : List Line} {ls ms : List (List Char)}
    (first : Fits due line mid ls) (others : Lays mid lines due' ms) :
    Lays due (line :: lines) due' (ls ++ ms)

/-- The text that lines are rendered as. -/
def rendered (lines : List Line) : List Char := lines.flatMap fun line => line.render.toList

theorem reads_indent (depth : Nat) (due : List Char) : Reads due (indent depth).toList due [] := by
  refine reads_plain (fun c hc => ?_) due
  rw [indent, String.toList_ofList] at hc
  rw [(List.mem_replicate.mp hc).2]
  decide

namespace Fits

theorem toList_render (h : Fits due line due' ls) :
    line.render.toList = (indent line.depth).toList ++ line.text.toList ++ ['\n'] := by
  obtain ⟨c, cs, htext, -⟩ := h.begins
  have hempty : ¬ line.text.isEmpty = true := by
    rw [String.isEmpty_iff]
    intro hempty
    rw [hempty] at htext
    cases htext
  rw [Line.render, if_neg hempty, String.toList_append, String.toList_append]
  rfl

theorem reads_indented (h : Fits due line due' ls) :
    Reads due ((indent line.depth).toList ++ line.text.toList) due' ls :=
  (reads_indent line.depth due).append h.reads

/-- The end of a line changes nothing in code. -/
theorem run_rendered (h : Fits due line due' ls) (found : List (List Char)) :
    Scanner.run ⟨due, .code, found⟩ ((indent line.depth).toList ++ line.text.toList ++ ['\n']) =
      some ⟨due', .code, found ++ ls⟩ := by
  rw [Scanner.run_append, h.reads_indented.run, Option.bind_some]
  rfl

/-- A line that goes on. -/
theorem append (h : Fits due line mid ls) (hnext : Reads mid text.toList due' ms) :
    Fits due ⟨line.depth, line.text ++ text⟩ due' (ls ++ ms) := by
  obtain ⟨c, cs, htext, hvisible, hdepth⟩ := h.begins
  refine ⟨⟨c, cs ++ text.toList, ?_, hvisible, hdepth⟩, ?_⟩
  · rw [String.toList_append, htext, List.cons_append]
  · rw [String.toList_append]
    exact h.reads.append hnext

end Fits

/-- Code stands in all braces that are open before it. -/
theorem IsCode.fits (h : IsCode text.toList ls) (hdepth : due.count '\x7d' = depth) :
    Fits due ⟨depth, text⟩ due ls := by
  obtain ⟨c, cs, htext, hvisible, hopen⟩ := h.begins
  exact ⟨⟨c, cs, htext, hvisible, by simp [depthAt, hopen, hdepth]⟩, h.reads due⟩

theorem fits_closing (hdepth : due.count '\x7d' = depth) :
    Fits ('\x7d' :: due) ⟨depth, "\x7d"⟩ due [] := by
  have htext : "\x7d".toList = ['\x7d'] := rfl
  refine ⟨⟨'\x7d', [], htext, by decide, ?_⟩, htext ▸ reads_closing (.inr rfl) due⟩
  rw [depthAt, List.count_cons_self, hdepth]
  rfl

namespace Lays

theorem append (h : Lays due lines mid ls) (hmore : Lays mid more due' ms) :
    Lays due (lines ++ more) due' (ls ++ ms) := by
  induction h with
  | nil => exact hmore
  | blank _ ih => exact .blank (ih hmore)
  | line hfirst _ ih =>
    rw [List.cons_append, List.append_assoc]
    exact .line hfirst (ih hmore)

theorem single (h : Fits due line due' ls) : Lays due [line] due' ls := by
  have hlays := Lays.line h .nil
  rwa [List.append_nil] at hlays

/-- The scanner comes from the brackets before the lines to those behind them. -/
theorem run (h : Lays due lines due' ls) (found : List (List Char)) :
    Scanner.run ⟨due, .code, found⟩ (rendered lines) = some ⟨due', .code, found ++ ls⟩ := by
  induction h generalizing found with
  | nil =>
    rw [List.append_nil]
    rfl
  | blank _ ih => exact ih found
  | line hfirst _ ih =>
    rw [rendered, List.flatMap_cons, hfirst.toList_render, Scanner.run_append, hfirst.run_rendered,
      Option.bind_some, ← rendered, ih, List.append_assoc]

theorem indented (h : Lays due lines due' ls) (found : List (List Char)) :
    Indented ⟨due, .code, found⟩ (rendered lines) := by
  induction h generalizing found with
  | nil => exact indented_nil _
  | blank _ ih => exact Indented.cons List.not_mem_nil (absurd rfl) rfl (ih found)
  | line hfirst _ ih =>
    have hrun := hfirst.run_rendered found
    obtain ⟨c, cs, htext, hvisible, hdepth⟩ := hfirst.begins
    rw [rendered, List.flatMap_cons, hfirst.toList_render, List.append_assoc]
    refine Indented.cons hfirst.reads_indented.oneLine (fun _ => ?_) hrun (ih _)
    refine ⟨_, found, c, cs, rfl, ?_, hvisible⟩
    rw [indent, String.toList_ofList, htext, hdepth]

theorem eq_of_nil (h : Lays due [] due' ls) : ls = [] := by
  cases h
  rfl

end Lays

/-! ## Blocks -/

theorem continued_concat (lines : List Line) (line next : Line) (more : List Line) :
    continued (lines ++ [line]) (next :: more) =
      lines ++ ⟨line.depth, line.text ++ next.text⟩ :: more := by
  induction lines with
  | nil => rfl
  | cons first lines ih =>
    cases lines with
    | nil => rfl
    | cons second lines => exact congrArg (first :: ·) ih

section Blocks

variable {opening : String} {body : List Line} (hdepth : due.count '\x7d' = depth)
  (hbody : Lays ('\x7d' :: due) body ('\x7d' :: due) ms)

include hdepth hbody

/-- What lines in braces start with is one line with the text before them. -/
theorem braces_cons (opening : String) : ∃ rest mid more,
    braces depth opening body = ⟨depth, opening ++ rest⟩ :: more ∧
      Reads due rest.toList mid [] ∧ Lays mid more due ms := by
  cases body with
  | nil =>
    obtain rfl := hbody.eq_of_nil
    exact ⟨"\x7b\x7d", due, [], rfl,
      (reads_opening (.inr ⟨rfl, rfl⟩) due).append (reads_closing (.inr rfl) due), .nil⟩
  | cons line lines =>
    have hlays := hbody.append (.single (fits_closing hdepth))
    rw [List.append_nil] at hlays
    exact ⟨"\x7b", '\x7d' :: due, _, rfl, reads_opening (.inr ⟨rfl, rfl⟩) due, hlays⟩

/-- What lines in braces end with is one line, on which code can go on. -/
theorem braces_concat (hopening : IsCode opening.toList ls) : ∃ lines mid text front back,
    braces depth opening body = lines ++ [⟨depth, text⟩] ∧ Lays due lines mid front ∧
      Fits mid ⟨depth, text⟩ due back ∧ ls ++ ms = front ++ back := by
  have hfits := hopening.fits hdepth
  cases body with
  | nil =>
    obtain rfl := hbody.eq_of_nil
    have hbraces : Reads due "\x7b\x7d".toList due [] :=
      (reads_opening (.inr ⟨rfl, rfl⟩) due).append (reads_closing (.inr rfl) due)
    exact ⟨[], due, _, [], ls ++ [], rfl, .nil, hfits.append hbraces, rfl⟩
  | cons line lines =>
    have hbrace : Reads due "\x7b".toList ('\x7d' :: due) [] :=
      reads_opening (.inr ⟨rfl, rfl⟩) due
    have hfirst := hfits.append hbrace
    rw [List.append_nil] at hfirst
    exact ⟨_, _, "\x7d", ls ++ ms, [], rfl, .line hfirst hbody, fits_closing hdepth,
      (List.append_nil _).symm⟩

theorem lays_braces (hopening : IsCode opening.toList ls) :
    Lays due (braces depth opening body) due (ls ++ ms) := by
  obtain ⟨lines, mid, text, front, back, hlines, hlays, hfits, hliterals⟩ :=
    braces_concat hdepth hbody hopening
  rw [hlines, hliterals]
  exact hlays.append (.single hfits)

/-- Lines in braces that go on with other lines in braces. -/
theorem lays_continued {body' : List Line} {opening' : String} (hopening : IsCode opening.toList ls)
    (hopening' : ∀ due, Reads due opening'.toList due [])
    (hbody' : Lays ('\x7d' :: due) body' ('\x7d' :: due) ns) :
    Lays due (continued (braces depth opening body) (braces depth opening' body')) due
      (ls ++ ms ++ ns) := by
  obtain ⟨lines, mid, text, front, back, hlines, hlays, hfits, hliterals⟩ :=
    braces_concat hdepth hbody hopening
  obtain ⟨rest, after, more, hmore, hrest, hlays'⟩ := braces_cons hdepth hbody' opening'
  -- the closing brace of the first block and the text before the second share a line
  have hnext : Reads due (opening' ++ rest).toList after [] := by
    rw [String.toList_append]
    exact (hopening' due).append hrest
  have hline := hfits.append hnext
  rw [List.append_nil] at hline
  rw [hlines, hmore, continued_concat, hliterals, List.append_assoc]
  exact hlays.append (.line hline hlays')

end Blocks

end Java

end TeachLang
