import TeachLang.Proofs.JavaTexts
import TeachLang.Proofs.Parts

/-!
# Brackets and literals in Java

A text of Java is **scanned** from left to right. The scanner knows nothing of emission: it tells
literals from the code around them, keeps the brackets of the code that are still open, and collects
the literals as they stand. It gets stuck at a bracket that closes what is not open, and at the end
of a line inside of a literal, so whatever it finds is closed by its last quote and no sooner.

`Java.Reads` says what a part of a line does to any scanner that comes to it in code. An emitted
expression closes all that it opens, and its literals are those of the program, so none of them ends
before its last quote (`Expr.isCode_java`).
-/

namespace TeachLang

namespace Java

/-! ## Scanning -/

/-- What a scanner is in the midst of. -/
inductive Mode where
  /-- code between literals -/
  | code
  /-- a literal that began with a quote, and its text so far -/
  | literal (quote : Char) (text : List Char)
  /-- a literal, right behind a backslash that stands for itself and the next character -/
  | escape (quote : Char) (text : List Char)

/-- A place that a scanner has come to. -/
structure Scanner where
  /-- the brackets that are to close what is open in the code, the innermost first -/
  due : List Char
  /-- what stands around the place -/
  mode : Mode
  /-- the literals in front of it, with their quotes -/
  found : List (List Char)

namespace Scanner

/-- Goes on over one character. -/
def step (s : Scanner) (c : Char) : Option Scanner :=
  match s.mode with
  | .code =>
    if c = '(' then some { s with due := ')' :: s.due }
    else if c = '\x7b' then some { s with due := '\x7d' :: s.due }
    else if c = ')' ∨ c = '\x7d' then
      if s.due.head? = some c then some { s with due := s.due.tail } else none
    else if c = '"' ∨ c = '\'' then some { s with mode := .literal c [c] }
    else some s
  | .literal quote text =>
    if c = '\n' ∨ c = '\r' then none
    else if c = '\\' then some { s with mode := .escape quote (text ++ [c]) }
    else if c = quote then some { s with mode := .code, found := s.found ++ [text ++ [c]] }
    else some { s with mode := .literal quote (text ++ [c]) }
  | .escape quote text =>
    if c = '\n' ∨ c = '\r' then none
    else some { s with mode := .literal quote (text ++ [c]) }

/-- Goes on over a text. -/
def run (s : Scanner) : List Char → Option Scanner
  | [] => some s
  | c :: cs => (s.step c).bind fun next => next.run cs

/-- A text is scanned piece by piece. -/
theorem run_append (s : Scanner) (cs ds : List Char) :
    s.run (cs ++ ds) = (s.run cs).bind fun next => next.run ds := by
  induction cs generalizing s with
  | nil => rfl
  | cons c cs ih =>
    rw [List.cons_append, run, run]
    cases s.step c with
    | none => rfl
    | some next => exact ih next

/-- The start of a text. -/
def start : Scanner := ⟨[], .code, []⟩

end Scanner

/-! ## What is found -/

/-- What may stand between quotes of a kind. No such quote stands there but behind a backslash, and
no line ends there at all. -/
inductive Between (quote : Char) : List Char → Prop where
  /-- nothing -/
  | nil : Between quote []
  /-- a character that stands for itself -/
  | plain {c : Char} {cs : List Char} : c ≠ quote → c ≠ '\\' → c ≠ '\n' → c ≠ '\r' →
    Between quote cs → Between quote (c :: cs)
  /-- a backslash and the character that it changes -/
  | escaped {c : Char} {cs : List Char} : c ≠ '\n' → c ≠ '\r' → Between quote cs →
    Between quote ('\\' :: c :: cs)

theorem Between.append {quote : Char} {cs ds : List Char} (h : Between quote cs)
    (hds : Between quote ds) : Between quote (cs ++ ds) := by
  induction h with
  | nil => exact hds
  | plain hquote hslash hline hreturn _ ih => exact .plain hquote hslash hline hreturn ih
  | escaped hline hreturn _ ih => exact .escaped hline hreturn ih

/-- The two kinds of quotes. -/
def IsQuote (c : Char) : Prop := c = '"' ∨ c = '\''

/-- A literal that is closed by its last character and no sooner. -/
def IsLiteral (text : List Char) : Prop :=
  ∃ quote body, IsQuote quote ∧ Between quote body ∧ text = quote :: (body ++ [quote])

namespace Scanner

/-- A scanner has found literals only, and may be in the midst of another. -/
structure Sound (s : Scanner) : Prop where
  /-- the literals that it has found -/
  found : ∀ l ∈ s.found, IsLiteral l
  /-- the literal that it is in -/
  literal : ∀ quote text, s.mode = .literal quote text →
    ∃ body, IsQuote quote ∧ Between quote body ∧ text = quote :: body
  /-- the literal that it is in, right behind a backslash -/
  escape : ∀ quote text, s.mode = .escape quote text →
    ∃ body, IsQuote quote ∧ Between quote body ∧ text = quote :: (body ++ ['\\'])

/-- One character leaves a sound scanner sound: what it has found so far are whole literals. -/
theorem Sound.step {s s' : Scanner} {c : Char} (h : s.Sound) (hstep : s.step c = some s') :
    s'.Sound := by
  obtain ⟨due, mode, found⟩ := s
  cases mode with
  | code =>
    simp only [Scanner.step] at hstep
    split_ifs at hstep with hparen hbrace hclosing hdue hquote <;> cases hstep
    · exact ⟨h.found, nofun, nofun⟩
    · exact ⟨h.found, nofun, nofun⟩
    · exact ⟨h.found, nofun, nofun⟩
    · refine ⟨h.found, fun quote text hmode => ?_, nofun⟩
      cases hmode
      exact ⟨[], hquote, .nil, rfl⟩
    · exact ⟨h.found, nofun, nofun⟩
  | literal quote text =>
    obtain ⟨body, hquote, hbody, rfl⟩ := h.literal quote text rfl
    simp only [Scanner.step] at hstep
    split_ifs at hstep with hline hslash hclose <;> cases hstep
    · refine ⟨h.found, nofun, fun quote text hmode => ?_⟩
      cases hmode
      exact ⟨body, hquote, hbody, by rw [hslash]; rfl⟩
    · refine ⟨List.forall_mem_append.mpr ⟨h.found, List.forall_mem_singleton.mpr ?_⟩, nofun, nofun⟩
      exact ⟨quote, body, hquote, hbody, by rw [hclose]; rfl⟩
    · refine ⟨h.found, fun quote text hmode => ?_, nofun⟩
      cases hmode
      rw [not_or] at hline
      exact ⟨body ++ [c], hquote, hbody.append (.plain hclose hslash hline.1 hline.2 .nil), rfl⟩
  | escape quote text =>
    obtain ⟨body, hquote, hbody, rfl⟩ := h.escape quote text rfl
    simp only [Scanner.step] at hstep
    split_ifs at hstep with hline
    cases hstep
    refine ⟨h.found, fun quote text hmode => ?_, nofun⟩
    cases hmode
    rw [not_or] at hline
    refine ⟨body ++ ['\\', c], hquote, hbody.append (.escaped hline.1 hline.2 .nil), ?_⟩
    simp

/-- Whatever a scanner finds in a text are literals. -/
theorem Sound.run {s s' : Scanner} {cs : List Char} (h : s.Sound) (hrun : s.run cs = some s') :
    s'.Sound := by
  induction cs generalizing s with
  | nil =>
    obtain rfl := Option.some.inj hrun
    exact h
  | cons c cs ih =>
    obtain ⟨next, hnext, hrest⟩ := Option.bind_eq_some_iff.mp hrun
    exact ih (h.step hnext) hrest

theorem sound_start : start.Sound := ⟨nofun, nofun, nofun⟩

end Scanner

/-! ## Reading parts of lines -/

/-- What has a meaning for a scanner in code, and what ends a line. -/
def marks : List Char := ['(', ')', '\x7b', '\x7d', '"', '\'', '\n']

/-- A scanner in code reads a part of a line and comes to code again, with other brackets due and
more literals found. -/
structure Reads (due : List Char) (cs : List Char) (due' : List Char) (ls : List (List Char)) :
    Prop where
  /-- what scanning comes to -/
  run : ∀ found, Scanner.run ⟨due, .code, found⟩ cs = some ⟨due', .code, found ++ ls⟩
  /-- it is no more than one line -/
  oneLine : '\n' ∉ cs

variable {due due' due'' cs ds : List Char} {ls ms : List (List Char)}

/-- Pieces that are read one after the other pay what the first leaves due. -/
theorem Reads.append (h : Reads due cs due' ls) (hnext : Reads due' ds due'' ms) :
    Reads due (cs ++ ds) due'' (ls ++ ms) := by
  refine ⟨fun found => ?_, ?_⟩
  · rw [Scanner.run_append, h.run, Option.bind_some, hnext.run, List.append_assoc]
  · rw [List.mem_append, not_or]
    exact ⟨h.oneLine, hnext.oneLine⟩

/-- A character without meaning leaves the scanner as it is. -/
theorem step_plain {c : Char} (hc : c ∉ marks) (due : List Char) (found : List (List Char)) :
    Scanner.step ⟨due, .code, found⟩ c = some ⟨due, .code, found⟩ := by
  simp only [marks, List.mem_cons, List.not_mem_nil, or_false, not_or] at hc
  simp [Scanner.step, hc]

theorem reads_plain (h : ∀ c ∈ cs, c ∉ marks) (due : List Char) : Reads due cs due [] := by
  refine ⟨fun found => ?_, fun hline => h _ hline (by simp [marks])⟩
  rw [List.append_nil]
  induction cs with
  | nil => rfl
  | cons c cs ih =>
    obtain ⟨hc, hcs⟩ := List.forall_mem_cons.mp h
    rw [Scanner.run, step_plain hc, Option.bind_some, ih hcs]

/-- An opening bracket makes its closing one due. -/
theorem reads_opening {opening closing : Char}
    (h : opening = '(' ∧ closing = ')' ∨ opening = '\x7b' ∧ closing = '\x7d') (due : List Char) :
    Reads due [opening] (closing :: due) [] := by
  rcases h with ⟨rfl, rfl⟩ | ⟨rfl, rfl⟩
  · exact ⟨fun found => by rw [List.append_nil]; rfl, by decide⟩
  · exact ⟨fun found => by rw [List.append_nil]; rfl, by decide⟩

/-- A closing bracket pays for the one that is due. -/
theorem reads_closing {closing : Char} (h : closing = ')' ∨ closing = '\x7d') (due : List Char) :
    Reads (closing :: due) [closing] due [] := by
  rcases h with rfl | rfl
  · exact ⟨fun found => by rw [List.append_nil]; rfl, by decide⟩
  · exact ⟨fun found => by rw [List.append_nil]; rfl, by decide⟩

/-! ### Literals -/

/-- Between its quotes no literal ends. -/
theorem run_escape {quote : Char} (hquote : IsQuote quote) (due : List Char)
    (found : List (List Char)) (text : List Char) :
    ∀ front, Scanner.run ⟨due, .literal quote front, found⟩ (text.flatMap escape) =
      some ⟨due, .literal quote (front ++ text.flatMap escape), found⟩ := by
  induction text with
  | nil =>
    intro front
    rw [List.flatMap_nil, List.append_nil]
    rfl
  | cons c text ih =>
    intro front
    rw [List.flatMap_cons]
    rcases Token.escape_cases c with ⟨heq, hslash, hdouble, hsingle, hline, hreturn⟩ |
      ⟨d, heq, hd, hline⟩
    · have hne : c ≠ quote := by rcases hquote with rfl | rfl <;> assumption
      have hstep : Scanner.step ⟨due, .literal quote front, found⟩ c =
          some ⟨due, .literal quote (front ++ [c]), found⟩ := by
        simp [Scanner.step, hline, hreturn, hslash, hne]
      rw [heq, List.singleton_append, Scanner.run, hstep, Option.bind_some, ih, List.append_assoc]
      rfl
    · have hreturn : d ≠ '\r' := by
        rintro rfl
        cases hd
      have hstep : Scanner.step ⟨due, .escape quote (front ++ ['\\']), found⟩ d =
          some ⟨due, .literal quote (front ++ ['\\'] ++ [d]), found⟩ := by
        simp [Scanner.step, hline, hreturn]
      have hslash : Scanner.step ⟨due, .literal quote front, found⟩ '\\' =
          some ⟨due, .escape quote (front ++ ['\\']), found⟩ := rfl
      rw [heq, List.cons_append, List.singleton_append, Scanner.run, hslash, Option.bind_some,
        Scanner.run, hstep, Option.bind_some, ih, List.append_assoc, List.append_assoc]
      rfl

/-- There is no newline in what a character is escaped to. -/
theorem newline_notMem_escape (c : Char) : '\n' ∉ escape c := by
  rcases Token.escape_cases c with ⟨heq, -, -, -, hline, -⟩ | ⟨d, heq, -, hline⟩
  · rw [heq, List.mem_singleton]
    exact hline.symm
  · rw [heq]
    simp [hline.symm]

/-- A literal is found with all that stands between its quotes. -/
theorem reads_enclosed {quote : Char} (hquote : IsQuote quote) (text : List Char)
    (due : List Char) :
    Reads due (enclosed quote text).toList due [(enclosed quote text).toList] := by
  rw [enclosed, String.toList_ofList, List.cons_append]
  refine ⟨fun found => ?_, ?_⟩
  · have hopen : Scanner.step ⟨due, .code, found⟩ quote =
        some ⟨due, .literal quote [quote], found⟩ := by
      rcases hquote with rfl | rfl <;> rfl
    have hclose : Scanner.step ⟨due, .literal quote ([quote] ++ text.flatMap escape), found⟩ quote =
        some ⟨due, .code, found ++ [[quote] ++ text.flatMap escape ++ [quote]]⟩ := by
      rcases hquote with rfl | rfl <;> rfl
    rw [Scanner.run, hopen, Option.bind_some, Scanner.run_append, run_escape hquote,
      Option.bind_some, Scanner.run, hclose]
    rfl
  · simp only [List.mem_cons, List.mem_append, List.mem_flatMap, List.not_mem_nil, or_false, not_or,
      not_exists, not_and]
    have hne : '\n' ≠ quote := by rcases hquote with rfl | rfl <;> decide
    exact ⟨hne, fun c _ => newline_notMem_escape c, hne⟩

/-! ### Code -/

/-- A part of a line that closes what it opens, and at which a line can start. -/
structure IsCode (cs : List Char) (ls : List (List Char)) : Prop where
  /-- it is not indented further, and does not start with a brace that closes a block -/
  begins : ∃ c ds, cs = c :: ds ∧ c ≠ ' ' ∧ c ≠ '\x7d'
  /-- scanning it leaves the brackets that were due before -/
  reads : ∀ due, Reads due cs due ls

theorem IsCode.append (h : IsCode cs ls) (hnext : ∀ due, Reads due ds due ms) :
    IsCode (cs ++ ds) (ls ++ ms) := by
  obtain ⟨c, rest, rfl, hc⟩ := h.begins
  exact ⟨⟨c, rest ++ ds, rfl, hc⟩, fun due => (h.reads due).append (hnext due)⟩

/-- What is made of plain characters, the first of which can start a line. -/
theorem isCode_plain {c : Char} (hc : c ≠ ' ') (hcs : ∀ d ∈ c :: cs, d ∉ marks) :
    IsCode (c :: cs) [] := by
  refine ⟨⟨c, cs, rfl, hc, ?_⟩, reads_plain hcs⟩
  rintro rfl
  exact hcs _ (List.mem_cons_self ..) (by simp [marks])

theorem reads_dot (due : List Char) : Reads due ['.'] due [] :=
  reads_plain (List.forall_mem_singleton.mpr (by decide)) due

theorem reads_comma (due : List Char) : Reads due [',', ' '] due [] :=
  reads_plain (by simp [marks]) due

/-- What is read in parentheses leaves due what was. -/
theorem reads_parens (h : ∀ due, Reads due cs due ls) (due : List Char) :
    Reads due ('(' :: (cs ++ [')'])) due ls := by
  have hopened := (reads_opening (.inl ⟨rfl, rfl⟩) due).append (h (')' :: due))
  simpa using hopened.append (reads_closing (.inl rfl) due)

/-- Code with commas between. -/
theorem reads_intercalate {T : Type} {literals : T → List (List Char)} {texts : List String}
    {items : List T}
    (h : List.Forall₂ (fun text item => IsCode text.toList (literals item)) texts items)
    (due : List Char) : Reads due (", ".intercalate texts).toList due (items.flatMap literals) := by
  rw [String.toList_intercalate]
  cases h with
  | nil => exact reads_plain (List.forall_mem_nil _) due
  | @cons text item texts items hfirst hothers =>
    have hmore : Reads due ((texts.map String.toList).flatMap ([',', ' '] ++ ·)) due
        (items.flatMap literals) := by
      induction hothers with
      | nil => exact reads_plain (List.forall_mem_nil _) due
      | cons hnext _ ih =>
        rw [List.map_cons, List.flatMap_cons, List.flatMap_cons]
        exact ((reads_comma due).append (hnext.reads due)).append ih
    rw [List.map_cons, intercalate_cons, List.flatMap_cons]
    exact (hfirst.reads due).append hmore

theorem notMem_marks {p : Char → Bool} (hp : marks.any p = false) {c : Char} (hc : p c = true) :
    c ∉ marks := by
  intro hmem
  exact List.any_eq_false.mp hp c hmem hc

/-! ### Words -/

theorem IsName.continues {n : List Char} (h : IsName n) : ∀ c ∈ n, continuesName c = true := by
  obtain ⟨c, ds, rfl, hc, hds⟩ := h
  refine List.forall_mem_cons.mpr ⟨?_, hds⟩
  simp only [startsName, Bool.or_eq_true] at hc
  simp only [continuesName, Char.isAlphanum, Bool.or_eq_true]
  tauto

/-- Paths are code without literals. -/
theorem isCode_path {text : String} (h : IsPath text) : IsCode text.toList [] := by
  cases hparts : parts text with
  | nil => exact absurd hparts (parts_ne_nil text)
  | cons first others =>
    rw [IsPath, hparts] at h
    have hplain : ∀ c ∈ text.toList, c ∉ marks := by
      intro c hc
      rw [toList_path text hparts] at hc
      rcases List.mem_append.mp hc with hc | hc
      · exact notMem_marks rfl ((h first (List.mem_cons_self ..)).continues c hc)
      · obtain ⟨n, hn, hc⟩ := List.mem_flatMap.mp hc
        rcases List.mem_cons.mp hc with rfl | hc
        · decide
        · exact notMem_marks rfl ((h n (List.mem_cons_of_mem _ hn)).continues c hc)
    obtain ⟨c, ds, rfl, hc, -⟩ := h first (List.mem_cons_self ..)
    rw [toList_path text hparts] at hplain ⊢
    refine isCode_plain ?_ hplain
    rintro rfl
    cases hc

/-- The characters of numbers. -/
def ofNumber (c : Char) : Bool := c.isDigit || c == '.' || c == 'E' || c == '-'

theorem ofNumber_of_isDigit {c : Char} (h : c.isDigit = true) : ofNumber c = true := by
  simp [ofNumber, h]

theorem ofNumber_of_isNumeral (h : IsNumeral cs) : ∀ c ∈ cs, ofNumber c = true := by
  obtain @⟨first, mantissa, marked, hfirst, hmantissa, hmarked⟩ := h
  refine List.forall_mem_cons.mpr ⟨ofNumber_of_isDigit hfirst, List.forall_mem_append.mpr ⟨?_, ?_⟩⟩
  · cases hmantissa with
    | whole hdigits => exact fun c hc => ofNumber_of_isDigit (hdigits c hc)
    | point hdigits hplaces =>
      refine List.forall_mem_append.mpr ⟨fun c hc => ofNumber_of_isDigit (hdigits c hc), ?_⟩
      refine List.forall_mem_cons.mpr ⟨rfl, fun c hc => ?_⟩
      exact ofNumber_of_isDigit (hplaces.isDigit c hc)
  · rcases hmarked with rfl | ⟨ds, hds, rfl⟩
    · exact fun c hc => nomatch hc
    · refine List.forall_mem_cons.mpr ⟨rfl, List.forall_mem_cons.mpr ⟨rfl, fun c hc => ?_⟩⟩
      exact ofNumber_of_isDigit (hds.isDigit c hc)

/-- So are numbers with their signs. -/
theorem isCode_numeral {text : String} (h : IsSignedNumeral text) : IsCode text.toList [] := by
  obtain ⟨cs, hcs, htext⟩ := h
  have hall : ∀ c ∈ text.toList, ofNumber c = true := by
    rcases htext with htext | htext <;> rw [htext]
    · exact ofNumber_of_isNumeral hcs
    · exact List.forall_mem_cons.mpr ⟨rfl, ofNumber_of_isNumeral hcs⟩
  obtain ⟨c, ds, heq⟩ : ∃ c ds, text.toList = c :: ds := by
    rcases htext with htext | htext
    · cases hcs with
      | intro => exact ⟨_, _, htext⟩
    · exact ⟨_, _, htext⟩
  rw [heq] at hall ⊢
  refine isCode_plain ?_ fun d hd => notMem_marks rfl (hall d hd)
  rintro rfl
  exact absurd (hall ' ' (List.mem_cons_self ..)) (by decide)

end Java

/-- A constant that has quotes in Java, as it stands there. -/
def Literal.quoted? : Literal → Option (List Char)
  | value@(character _) | value@(string _) => some (Java.literal value).toList
  | _ => none

namespace Java

/-- Scanning a constant finds it, if it has quotes. -/
theorem isCode_literal {value : Literal} (h : value.Spellable) :
    IsCode (literal value).toList value.quoted?.toList := by
  have henclosed : ∀ {quote : Char} (text : List Char), IsQuote quote →
      IsCode (enclosed quote text).toList [(enclosed quote text).toList] := by
    intro quote text hquote
    refine ⟨⟨quote, text.flatMap escape ++ [quote], ?_, ?_⟩, reads_enclosed hquote text⟩
    · rw [enclosed, String.toList_ofList, List.cons_append]
    · rcases hquote with rfl | rfl <;> decide
  cases value with
  | nil => exact @isCode_plain ['u', 'l', 'l'] 'n' (by decide) (by simp [marks])
  | boolean b =>
    cases b
    · exact @isCode_plain ['a', 'l', 's', 'e'] 'f' (by decide) (by simp [marks])
    · exact @isCode_plain ['r', 'u', 'e'] 't' (by decide) (by simp [marks])
  | integer n => exact isCode_numeral (isSignedNumeral_integer n)
  | decimal d => exact isCode_numeral (isSignedNumeral_decimal h.1)
  | character c => exact henclosed [c] (.inr rfl)
  | string s => exact henclosed s.toList (.inl rfl)

theorem reads_operator (o : Operator) (due : List Char) :
    Reads due (' ' :: ((operator o).toList ++ [' '])) due [] := by
  have hplain : (' ' :: ((operator o).toList ++ [' '])).all (fun c => decide (c ∉ marks)) := by
    cases o <;> rfl
  exact reads_plain (fun c hc => of_decide_eq_true (List.all_eq_true.mp hplain c hc)) due

end Java

/-! ## Expressions -/

namespace Expr

open Java

/-- The constant that an expression is, if it has quotes in Java. -/
def quoted? : Expr → Option (List Char)
  | literal value _ _ => value.quoted?
  | _ => none

/-- The constants with quotes in an expression, as they stand in Java. -/
def quotations (e : Expr) : List (List Char) := e.parts.filterMap quoted?

/-- The literals of arguments are those of each, in their order. -/
theorem filterMap_allParts (es : List Expr) :
    (allParts es).filterMap quoted? = es.flatMap quotations := by
  induction es with
  | nil => rfl
  | cons e es ih => rw [allParts, List.filterMap_append, ih, List.flatMap_cons, quotations]

mutual

/-- An expression is emitted as code in which its constants are found. -/
theorem isCode_java : ∀ {e : Expr}, e.Emittable →
    ∃ text, e.java = .ok text ∧ IsCode text.toList e.quotations
  | literal value ty span, ⟨hty, hvalue⟩ => by
    obtain ⟨ty, rfl⟩ := Option.isSome_iff_exists.mp hty
    have hquotations : (literal value (some ty) span).quotations = value.quoted?.toList := by
      cases value <;> rfl
    exact ⟨_, rfl, hquotations ▸ isCode_literal hvalue⟩
  | group inner ty span, ⟨hty, he⟩ => by
    obtain ⟨ty, rfl⟩ := Option.isSome_iff_exists.mp hty
    obtain ⟨text, htext, hcode⟩ := isCode_java he
    refine ⟨"(" ++ text ++ ")", by simp only [java, htext]; rfl, ?_⟩
    have hparens := reads_parens hcode.reads
    have hcode : IsCode ('(' :: (text.toList ++ [')'])) inner.quotations :=
      ⟨⟨'(', _, rfl, by decide, by decide⟩, hparens⟩
    simpa [quotations, parts, quoted?, List.filterMap_cons] using hcode
  | binary operator left right ty span, ⟨hty, hl, hr, _⟩ => by
    obtain ⟨ty, rfl⟩ := Option.isSome_iff_exists.mp hty
    obtain ⟨first, hfirst, hleft⟩ := isCode_java hl
    obtain ⟨second, hsecond, hright⟩ := isCode_java hr
    refine ⟨first ++ " " ++ Java.operator operator ++ " " ++ second,
      by simp only [java, hfirst, hsecond]; rfl, ?_⟩
    have hboth := (hleft.append (reads_operator operator)).append hright.reads
    simpa [quotations, parts, quoted?, List.filterMap_cons] using hboth
  | name n binding span, ⟨v, hv, hpath⟩ => by
    subst hv
    exact ⟨v.javaName, rfl, isCode_path hpath⟩
  | member receiver n binding span, ⟨he, hreceiver, v, hv, hpath⟩ => by
    subst hv
    obtain ⟨text, htext, hcode⟩ := isCode_java he
    refine ⟨text ++ "." ++ v.javaName, by simp only [java, htext]; rfl, ?_⟩
    have hmember := (hcode.append reads_dot).append (isCode_path hpath).reads
    simpa [quotations, parts, quoted?, List.filterMap_cons] using hmember
  | call n arguments callee span, ⟨he, f, hf, hpath⟩ => by
    subst hf
    obtain ⟨texts, htexts, hall⟩ := allIsCode_java he
    refine ⟨f.javaName ++ "(" ++ ", ".intercalate texts ++ ")",
      by simp only [java, htexts]; rfl, ?_⟩
    have hcall := (isCode_path hpath).append (reads_parens (reads_intercalate hall))
    simpa [quotations, parts, quoted?, List.filterMap_cons, filterMap_allParts] using hcall
  | methodCall receiver n arguments callee span, ⟨he, hreceiver, hes, f, hf, hpath⟩ => by
    subst hf
    obtain ⟨text, htext, hcode⟩ := isCode_java he
    obtain ⟨texts, htexts, hall⟩ := allIsCode_java hes
    refine ⟨text ++ "." ++ f.javaName ++ "(" ++ ", ".intercalate texts ++ ")",
      by simp only [java, htext, htexts]; rfl, ?_⟩
    have hmember := (hcode.append reads_dot).append (isCode_path hpath).reads
    have hcall := hmember.append (reads_parens (reads_intercalate hall))
    simpa [quotations, parts, quoted?, List.filterMap_cons, filterMap_allParts] using hcall

theorem allIsCode_java : ∀ {es : List Expr}, AllEmittable es →
    ∃ texts, javaAll es = .ok texts ∧
      List.Forall₂ (fun text e => IsCode text.toList e.quotations) texts es
  | [], _ => ⟨[], rfl, .nil⟩
  | e :: es, ⟨he, hes⟩ => by
    obtain ⟨text, htext, hcode⟩ := isCode_java he
    obtain ⟨texts, htexts, hall⟩ := allIsCode_java hes
    exact ⟨text :: texts, by simp only [javaAll, htext, htexts]; rfl, .cons hcode hall⟩

end

end Expr

end TeachLang
