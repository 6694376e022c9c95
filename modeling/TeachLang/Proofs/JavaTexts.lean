import TeachLang.Proofs.JavaTrees
import TeachLang.Proofs.Lexical

/-!
# The texts of emitted expressions

An emitted text is cut into the lexemes of its expression. What a lexeme is depends on what stands
behind it, so `Lexes` speaks of all that a text may be gone on with: a number must not be followed
by another digit, while anything may follow a parenthesis.

`Expr.read_java` puts this together with the way from lexemes to trees.
-/

namespace TeachLang

namespace Java

/-! ## From texts to lexemes -/

/-- Whether a text is cut into lexemes wherever it goes on with one of the given characters, or
ends. -/
def Lexes (stops : Char → Prop) (cs : List Char) (ls : List Lexeme) : Prop :=
  ∀ rest, (∀ c ∈ rest.head?, stops c) → lexemes (cs ++ rest) = (lexemes rest).map (ls ++ ·)

/-- What an expression can be gone on with. -/
def Ends (c : Char) : Prop := c = ' ' ∨ c = ')' ∨ c = ','

/-- Texts one behind the other have the lexemes of both, if what is in front of the second stops the
first. -/
theorem Lexes.append {stops stops' : Char → Prop} {cs ds : List Char} {ls ms : List Lexeme}
    (h : Lexes stops cs ls) (hnext : Lexes stops' ds ms)
    (hhead : ∀ rest, (∀ c ∈ rest.head?, stops' c) → ∀ c ∈ (ds ++ rest).head?, stops c) :
    Lexes stops' (cs ++ ds) (ls ++ ms) := by
  intro rest hrest
  rw [List.append_assoc, h _ (hhead rest hrest), hnext rest hrest, Option.map_map]
  simp [Function.comp_def]

/-- A text may be asked to be stopped by fewer characters than stop it. -/
theorem Lexes.mono {stops stops' : Char → Prop} {cs : List Char} {ls : List Lexeme}
    (h : Lexes stops cs ls) (hstops : ∀ c, stops' c → stops c) : Lexes stops' cs ls :=
  fun rest hrest => h rest fun c hc => hstops c (hrest c hc)

theorem Lexes.nil (stops : Char → Prop) : Lexes stops [] [] := by
  intro rest _
  simp

/-- A text that is one lexeme. -/
theorem lexes_of_front {stops : Char → Prop} {c : Char} {cs : List Char} {l : Lexeme}
    (hblank : c.isWhitespace = false)
    (h : ∀ rest, (∀ d ∈ rest.head?, stops d) → front c (cs ++ rest) = some (l, cs.length)) :
    Lexes stops (c :: cs) [l] := by
  intro rest hrest
  rw [List.cons_append, lexemes, hblank, if_neg Bool.false_ne_true, h rest hrest]
  simp

theorem lexes_blank {stops : Char → Prop} {c : Char} (hblank : c.isWhitespace = true) :
    Lexes stops [c] [] := by
  intro rest _
  rw [List.singleton_append, lexemes, if_pos hblank]
  simp

theorem isWhitespace_eq_false {p : Char → Bool} (hp : Text.blanks.any p = false) {c : Char}
    (hc : p c = true) : c.isWhitespace = false := by
  have hblank := Token.notMem_blanks hp hc
  simp only [Text.blanks, List.mem_cons, List.not_mem_nil, or_false, not_or] at hblank
  simp [Char.isWhitespace, hblank]

/-- Any text may stand behind a mark of punctuation. -/
theorem lexes_mark {c : Char} {l : Lexeme} (hblank : c.isWhitespace = false)
    (h : ∀ rest, front c rest = some (l, 0)) : Lexes (fun _ => True) [c] [l] :=
  lexes_of_front hblank fun rest _ => h rest

/-- A name goes on to the first character that no name continues with. -/
theorem lexes_name {cs : List Char} (h : IsName cs) :
    Lexes (fun c => continuesName c = false) cs [.word (String.ofList cs)] := by
  obtain ⟨c, ds, rfl, hc, hds⟩ := h
  refine lexes_of_front (isWhitespace_eq_false rfl hc) fun rest hrest => ?_
  rw [front, if_pos hc, Text.takeWhile_run hds hrest]

/-- Names that stand behind points. -/
theorem lexes_parts {ns : List (List Char)} (h : ∀ n ∈ ns, IsName n) :
    Lexes (fun c => continuesName c = false) (ns.flatMap fun n => '.' :: n)
      (ns.flatMap partLexemes) := by
  induction ns with
  | nil => exact Lexes.nil _
  | cons n ns ih =>
    have hn := lexes_name (h n (List.mem_cons_self ..))
    have hrest := ih fun m hm => h m (List.mem_cons_of_mem _ hm)
    have hdot : Lexes (fun _ => True) ['.'] [.dot] := lexes_mark rfl fun _ => rfl
    refine (hdot.append hn fun _ _ _ _ => trivial).append hrest fun rest hstops c hc => ?_
    cases ns with
    | nil => exact hstops c hc
    | cons m ns =>
      obtain rfl := Option.some.inj hc
      rfl

theorem intercalate_cons {α : Type} (sep x : List α) (xs : List (List α)) :
    sep.intercalate (x :: xs) = x ++ xs.flatMap (sep ++ ·) := by
  induction xs generalizing x with
  | nil => simp
  | cons y ys ih => simp [ih]

/-- A path is its parts with dots between them. -/
theorem toList_path (text : String) {first : List Char} {others : List (List Char)}
    (h : parts text = first :: others) :
    text.toList = first ++ others.flatMap fun n => '.' :: n := by
  have hjoin : ['.'].intercalate (parts text) = text.toList := List.intercalate_splitOn '.'
  rw [← hjoin, h, intercalate_cons]
  rfl

theorem lexes_path {text : String} (h : IsPath text) :
    Lexes (fun c => continuesName c = false) text.toList (pathLexemes text) := by
  cases hparts : parts text with
  | nil => exact absurd hparts (parts_ne_nil text)
  | cons first others =>
    rw [IsPath, hparts] at h
    rw [toList_path text hparts, pathLexemes, memberLexemes, hparts]
    have hfirst := lexes_name (h first (List.mem_cons_self ..))
    have hothers := lexes_parts fun n hn => h n (List.mem_cons_of_mem _ hn)
    refine hfirst.append hothers fun rest hstops c hc => ?_
    cases others with
    | nil => exact hstops c hc
    | cons m ns =>
      obtain rfl := Option.some.inj hc
      rfl

theorem lexes_member {text : String} (h : IsPath text) :
    Lexes (fun c => continuesName c = false) ('.' :: text.toList) (memberLexemes text) := by
  have hall := lexes_parts h
  cases hparts : parts text with
  | nil => exact absurd hparts (parts_ne_nil text)
  | cons first others =>
    rw [toList_path text hparts]
    rwa [hparts, List.flatMap_cons, List.cons_append, ← hparts] at hall

/-! ### Literals -/

/-- A number without a sign: a digit, more digits with a point among them perhaps, and perhaps an
exponent. -/
inductive IsNumeral : List Char → Prop where
  /-- the parts of a number -/
  | intro {c : Char} {mantissa marked : List Char} (digit : c.isDigit = true)
    (number : Token.IsNumber mantissa)
    (exponent : marked = [] ∨ ∃ ds, Text.IsDigits ds ∧ marked = 'E' :: '-' :: ds) :
    IsNumeral (c :: (mantissa ++ marked))

/-- The longest number at the front of a numeral is the whole of it, with its exponent. -/
theorem numberText_numeral {mantissa marked rest : List Char} (hmantissa : Token.IsNumber mantissa)
    (hmarked : marked = [] ∨ ∃ ds, Text.IsDigits ds ∧ marked = 'E' :: '-' :: ds)
    (hrest : ∀ c ∈ rest.head?, Ends c) :
    numberText (mantissa ++ marked ++ rest) = mantissa ++ marked := by
  have hends : Token.EndsNumber (marked ++ rest) := by
    intro c hc
    rcases hmarked with rfl | ⟨ds, -, rfl⟩
    · rcases hrest c hc with rfl | rfl | rfl <;> decide
    · obtain rfl := Option.some.inj hc
      decide
  have hexponent : exponent (marked ++ rest) = marked := by
    rcases hmarked with rfl | ⟨ds, hds, rfl⟩
    · cases rest with
      | nil => rfl
      | cons c rest =>
        have hc := hrest c rfl
        have hne : ¬ (c = 'e' ∨ c = 'E') := by rcases hc with rfl | rfl | rfl <;> decide
        rw [List.nil_append, exponent, if_neg hne]
    · have hdigit : ∀ c ∈ rest.head?, c.isDigit = false := fun c hc => by
        rcases hrest c hc with rfl | rfl | rfl <;> rfl
      simp [exponent, Text.takeWhile_run hds.isDigit hdigit]
  rw [numberText, List.append_assoc]
  simp only [Token.numberText_run hmantissa hends, List.drop_left, hexponent]

theorem lexes_number {cs : List Char} (h : IsNumeral cs) :
    Lexes Ends cs [.number (String.ofList cs)] := by
  obtain @⟨c, mantissa, marked, hdigit, hnumber, hexponent⟩ := h
  refine lexes_of_front (isWhitespace_eq_false rfl hdigit) fun rest hrest => ?_
  have hstart : startsName c = false := by
    have hword := Token.startsWord_of_isDigit hdigit
    have hdollar := Text.ne_of_isDigit hdigit (d := '$') rfl
    simp_all [startsName, Token.startsWord]
  rw [front, hstart, if_neg Bool.false_ne_true, if_pos hdigit,
    numberText_numeral hnumber hexponent hrest]

/-- A number that may have a minus. -/
def IsSignedNumeral (text : String) : Prop :=
  ∃ cs, IsNumeral cs ∧ (text.toList = cs ∨ text.toList = '-' :: cs)

/-- A sign and a number are two lexemes. -/
theorem lexes_numeral {text : String} (h : IsSignedNumeral text) :
    Lexes Ends text.toList (numeralLexemes text) := by
  obtain ⟨cs, hcs, htext⟩ := h
  have hne : ∀ ds, cs ≠ '-' :: ds := by
    rintro ds rfl
    cases hcs with
    | intro digit => cases digit
  have hnumber := lexes_number hcs
  rcases htext with htext | htext
  · have hlexemes : numeralLexemes text = [.number (String.ofList cs)] := by
      rw [numeralLexemes, htext]
      split
      · next heq => exact absurd rfl (hne _)
      · rfl
    rwa [htext, hlexemes]
  · have hlexemes : numeralLexemes text = [.sign .minus, .number (String.ofList cs)] := by
      rw [numeralLexemes, htext]
      rfl
    have hminus : Lexes (fun _ => True) ['-'] [.sign .minus] := lexes_mark rfl fun _ => rfl
    rw [htext, hlexemes]
    exact hminus.append hnumber fun _ _ _ _ => trivial

theorem isNumeral_digits (n : Nat) : IsNumeral (Text.digits n) := by
  have hdigits := Text.isDigits_digits n
  cases hn : Text.digits n with
  | nil => exact absurd hn hdigits.ne_nil
  | cons c ds =>
    rw [hn] at hdigits
    have hds : ∀ d ∈ ds, d.isDigit = true := fun d hd =>
      hdigits.isDigit d (List.mem_cons_of_mem _ hd)
    have hnumeral := IsNumeral.intro (hdigits.isDigit c (List.mem_cons_self ..)) (.whole hds)
      (.inl rfl)
    rwa [List.append_nil] at hnumeral

theorem toList_toString (n : Nat) : (toString n).toList = Text.digits n := by
  change n.repr.toList = _
  rw [Nat.repr_eq_ofList_toDigits, String.toList_ofList]
  rfl

theorem isSignedNumeral_integer (n : Int) : IsSignedNumeral (toString n) := by
  refine ⟨Text.digits n.natAbs, isNumeral_digits _, ?_⟩
  cases n with
  | ofNat n => exact .inl (toList_toString n)
  | negSucc n =>
    right
    change ("-" ++ toString (n + 1)).toList = '-' :: Text.digits (n + 1)
    rw [String.toList_append, toList_toString]
    rfl

/-- A number with places, however they are written. -/
theorem isNumeral_fraction {digits : List Char} (hdigits : Text.IsDigits digits) {places : Nat}
    (hplaces : 0 < places) : IsNumeral (Decimal.writeFraction digits places).toList := by
  obtain ⟨hne, hdigit⟩ := hdigits
  have hdigits : Text.IsDigits digits := ⟨hne, hdigit⟩
  unfold Decimal.writeFraction
  split
  · next hlt =>
    -- the point stands between two of the digits
    obtain ⟨k, hk⟩ : ∃ k, digits.length - places = k + 1 := ⟨digits.length - places - 1, by omega⟩
    have hdrop : Text.IsDigits (digits.drop (k + 1)) := by
      refine ⟨fun hnil => ?_, fun c hc => hdigit c (List.mem_of_mem_drop hc)⟩
      have hlength := List.drop_eq_nil_iff.mp hnil
      omega
    cases digits with
    | nil => exact absurd rfl hne
    | cons c ds =>
      have htake : ∀ d ∈ ds.take k, d.isDigit = true := fun d hd =>
        hdigit d (List.mem_cons_of_mem _ (List.mem_of_mem_take hd))
      have hnumeral := IsNumeral.intro (hdigit c (List.mem_cons_self ..)) (.point htake hdrop)
        (.inl rfl)
      rw [hk, String.toList_append, String.toList_append, String.toList_ofList,
        String.toList_ofList]
      simpa using hnumeral
  split
  · -- zeros stand before the digits
    have hzeros : Text.IsDigits (List.replicate (places - digits.length) '0' ++ digits) :=
      ⟨by simp [hne], fun c hc => (List.mem_append.mp hc).elim
        (fun h => by rw [(List.mem_replicate.mp h).2]; rfl) (hdigit c)⟩
    have hnumeral := IsNumeral.intro (c := '0') rfl (@Token.IsNumber.point [] _ (by simp) hzeros)
      (.inl rfl)
    simpa [Decimal.zeros] using hnumeral
  · -- one digit stands before the point, and there is an exponent
    cases digits with
    | nil => exact absurd rfl hne
    | cons c ds =>
      have hc := hdigit c (List.mem_cons_self ..)
      have hds : ∀ d ∈ ds, d.isDigit = true := fun d hd => hdigit d (List.mem_cons_of_mem _ hd)
      have hexponent := Text.isDigits_digits (places + 1 - (c :: ds).length)
      cases ds with
      | nil =>
        have hnumeral := IsNumeral.intro hc (.whole hds) (.inr ⟨_, hexponent, rfl⟩)
        rw [String.toList_append, toList_toString]
        simpa using hnumeral
      | cons d ds =>
        have hnumeral := IsNumeral.intro hc
          (@Token.IsNumber.point [] _ (by simp) ⟨List.cons_ne_nil _ _, hds⟩)
          (.inr ⟨_, hexponent, rfl⟩)
        rw [String.toList_append, toList_toString]
        simpa using hnumeral

/-- A decimal with places behind the point is written as a number, with or without an exponent. -/
theorem isSignedNumeral_decimal {d : Decimal} (h : 0 < d.scale) : IsSignedNumeral d.write := by
  have hplaces : 0 < d.scale.toNat := by omega
  have hfraction := isNumeral_fraction (Text.isDigits_digits d.unscaled.natAbs) hplaces
  unfold Decimal.write
  split
  · exact ⟨['0'], isNumeral_digits 0, .inl rfl⟩
  · refine ⟨_, hfraction, ?_⟩
    dsimp only
    rw [String.toList_append]
    split
    · exact .inr rfl
    · exact .inl rfl

/-- A literal is one lexeme, or two if it has a sign. -/
theorem lexes_literal {value : Literal} (h : value.Spellable) :
    Lexes Ends (literal value).toList (literalLexemes value) := by
  have hname : ∀ c, Ends c → continuesName c = false := by rintro c (rfl | rfl | rfl) <;> rfl
  have hword : ∀ {text : String}, IsName text.toList →
      Lexes Ends text.toList [.word text] := fun {text} h => by
    have hlexes := (lexes_name h).mono hname
    rwa [String.ofList_toList] at hlexes
  have hquoted : ∀ {quote : Char} (text : List Char), quote = '\'' ∨ quote = '"' →
      Lexes Ends (enclosed quote text).toList [.quoted (enclosed quote text)] := by
    intro quote text hquote
    rw [enclosed, String.toList_ofList, List.cons_append]
    refine lexes_of_front (by rcases hquote with rfl | rfl <;> rfl) fun rest _ => ?_
    have hraw := Token.rawBody_escape hquote text rest
    have hfront : front quote (text.flatMap escape ++ quote :: rest) =
        (Token.rawBody quote (text.flatMap escape ++ quote :: rest)).map fun body =>
          (.quoted (String.ofList (quote :: body ++ [quote])), body.length + 1) := by
      rcases hquote with rfl | rfl <;> rfl
    rw [List.append_assoc, List.singleton_append, hfront, hraw]
    simp
  cases value with
  | nil => exact @hword "null" (by simp [IsName, startsName, continuesName])
  | boolean b =>
    cases b
    · exact @hword "false" (by simp [IsName, startsName, continuesName])
    · exact @hword "true" (by simp [IsName, startsName, continuesName])
  | integer n => exact lexes_numeral (isSignedNumeral_integer n)
  | decimal d => exact lexes_numeral (isSignedNumeral_decimal h.1)
  | character c => exact hquoted [c] (.inl rfl)
  | string text => exact hquoted text.toList (.inr rfl)

/-- What stands behind a text may begin with anything that the text can be gone on with. -/
theorem Lexes.before {stops stops' : Char → Prop} {cs ds : List Char} {d : Char}
    {ls ms : List Lexeme} (h : Lexes stops cs ls) (hnext : Lexes stops' (d :: ds) ms)
    (hd : stops d) : Lexes stops' (cs ++ d :: ds) (ls ++ ms) :=
  h.append hnext fun _ _ _ hc => Option.some.inj hc ▸ hd

theorem lexes_openParen : Lexes (fun _ => True) ['('] [.openParen] := lexes_mark rfl fun _ => rfl

theorem lexes_closeParen : Lexes (fun _ => True) [')'] [.closeParen] := lexes_mark rfl fun _ => rfl

theorem lexes_comma : Lexes (fun _ => True) [',', ' '] [.comma] := by
  have hmark : Lexes (fun _ => True) [','] [.comma] := lexes_mark rfl fun _ => rfl
  exact hmark.append (lexes_blank rfl) fun _ _ _ _ => trivial

theorem lexes_operator (o : Operator) :
    Lexes (fun _ => True) (' ' :: ((operator o).toList ++ [' '])) [.sign o] := by
  have hsign : Lexes (· = ' ') (operator o).toList [.sign o] := by
    cases o <;>
    · refine lexes_of_front rfl fun rest hrest => ?_
      cases rest with
      | nil => rfl
      | cons c rest =>
        obtain rfl := hrest c rfl
        rfl
  have hblank : Lexes (fun _ => True) [' '] [] := lexes_blank rfl
  refine hblank.append (hsign.append hblank fun rest _ c hc => ?_) fun _ _ _ _ => trivial
  exact (Option.some.inj hc).symm

end Java

namespace Expr

open Java

/-- What an expression can be gone on with. -/
def stops (e : Expr) (c : Char) : Prop :=
  Ends c ∨ (e.isAccess || e.isCall) = true ∧ continuesName c = false

theorem lexes_closed {e : Expr} {cs : List Char} {ls : List Lexeme}
    (h : Lexes (fun _ => True) cs ls) : Lexes e.stops cs ls := h.mono fun _ _ => trivial

theorem lexes_named {e : Expr} {cs : List Char} {ls : List Lexeme}
    (h : Lexes (fun c => continuesName c = false) cs ls) : Lexes e.stops cs ls := by
  refine h.mono fun c hc => ?_
  rcases hc with (rfl | rfl | rfl) | ⟨-, hc⟩
  · rfl
  · rfl
  · rfl
  · exact hc

/-- The texts of further arguments, and the parenthesis behind them. -/
def moreText (texts : List String) : List Char :=
  texts.flatMap (fun text => ',' :: ' ' :: text.toList) ++ [')']

/-- An argument ends where others follow, or none. -/
theorem head_more (texts : List String) {e : Expr} (rest : List Char) (_ : ∀ c ∈ rest.head?, True) :
    ∀ c ∈ (moreText texts ++ rest).head?, e.stops c := by
  intro c hc
  cases texts with
  | nil =>
    obtain rfl := Option.some.inj hc
    exact .inl (.inr (.inl rfl))
  | cons second texts =>
    obtain rfl := Option.some.inj hc
    exact .inl (.inr (.inr rfl))

mutual

/-- An expression is emitted as a text that is cut into its lexemes. -/
theorem lexes_java : ∀ {e : Expr}, e.Emittable →
    ∃ text, e.java = .ok text ∧ Lexes e.stops text.toList e.lexemes
  | literal value ty span, ⟨hty, hvalue⟩ => by
    obtain ⟨ty, rfl⟩ := Option.isSome_iff_exists.mp hty
    exact ⟨_, rfl, (lexes_literal hvalue).mono fun c hc => hc.resolve_right fun h => nomatch h.1⟩
  | group inner ty span, ⟨hty, he⟩ => by
    obtain ⟨ty, rfl⟩ := Option.isSome_iff_exists.mp hty
    obtain ⟨text, htext, hlexes⟩ := lexes_java he
    refine ⟨"(" ++ text ++ ")", by simp only [java, htext]; rfl, lexes_closed ?_⟩
    have hparens := lexes_openParen.append (hlexes.before lexes_closeParen (.inl (.inr (.inl rfl))))
      fun _ _ _ _ => trivial
    simpa [lexemes] using hparens
  | binary operator left right ty span, ⟨hty, hl, hr, _⟩ => by
    obtain ⟨ty, rfl⟩ := Option.isSome_iff_exists.mp hty
    obtain ⟨first, hfirst, hleft⟩ := lexes_java hl
    obtain ⟨second, hsecond, hright⟩ := lexes_java hr
    refine ⟨first ++ " " ++ Java.operator operator ++ " " ++ second,
      by simp only [java, hfirst, hsecond]; rfl, ?_⟩
    have hends : Lexes Ends second.toList right.lexemes := hright.mono fun c hc => .inl hc
    have hboth := (hleft.before (lexes_operator operator) (.inl (.inl rfl))).append hends
      fun _ _ _ _ => trivial
    refine Lexes.mono ?_ fun c hc => hc.resolve_right fun h => nomatch h.1
    simpa [lexemes] using hboth
  | name n binding span, ⟨v, hv, hpath⟩ => by
    subst hv
    exact ⟨v.javaName, rfl, lexes_named (lexes_path hpath)⟩
  | member receiver n binding span, ⟨he, hreceiver, v, hv, hpath⟩ => by
    subst hv
    obtain ⟨text, htext, hlexes⟩ := lexes_java he
    refine ⟨text ++ "." ++ v.javaName, by simp only [java, htext]; rfl, lexes_named ?_⟩
    have hmember := hlexes.before (lexes_member hpath) (.inr ⟨hreceiver, rfl⟩)
    simpa [lexemes] using hmember
  | call n arguments callee span, ⟨he, f, hf, hpath⟩ => by
    subst hf
    obtain ⟨texts, htexts, hlexes⟩ := lexes_arguments he
    refine ⟨f.javaName ++ "(" ++ ", ".intercalate texts ++ ")",
      by simp only [java, htexts]; rfl, lexes_closed ?_⟩
    have hcall := (lexes_path hpath).before hlexes rfl
    simpa [lexemes] using hcall
  | methodCall receiver n arguments callee span, ⟨he, hreceiver, hes, f, hf, hpath⟩ => by
    subst hf
    obtain ⟨text, htext, hlexes⟩ := lexes_java he
    obtain ⟨texts, htexts, harguments⟩ := lexes_arguments hes
    refine ⟨text ++ "." ++ f.javaName ++ "(" ++ ", ".intercalate texts ++ ")",
      by simp only [java, htext, htexts]; rfl, lexes_closed ?_⟩
    have hmember := hlexes.before (lexes_member hpath) (.inr ⟨hreceiver, rfl⟩)
    have hcall := hmember.before harguments rfl
    simpa [lexemes] using hcall

theorem lexes_arguments : ∀ {es : List Expr}, AllEmittable es →
    ∃ texts, javaAll es = .ok texts ∧
      Lexes (fun _ => True) ('(' :: ((", ".intercalate texts).toList ++ [')'])) (argumentLexemes es)
  | [], _ => ⟨[], rfl, lexes_openParen.append lexes_closeParen fun _ _ _ _ => trivial⟩
  | e :: es, ⟨he, hes⟩ => by
    obtain ⟨text, htext, hlexes⟩ := lexes_java he
    obtain ⟨texts, htexts, hmore⟩ := lexes_more hes
    refine ⟨text :: texts, by simp only [javaAll, htext, htexts]; rfl, ?_⟩
    have hall := lexes_openParen.append (hlexes.append hmore (head_more texts))
      fun _ _ _ _ => trivial
    rw [String.toList_intercalate, List.map_cons, intercalate_cons]
    simpa [argumentLexemes, moreText, List.flatMap_map] using hall

theorem lexes_more : ∀ {es : List Expr}, AllEmittable es →
    ∃ texts, javaAll es = .ok texts ∧
      Lexes (fun _ => True) (moreText texts) (moreLexemes es ++ [.closeParen])
  | [], _ => ⟨[], rfl, lexes_closeParen⟩
  | e :: es, ⟨he, hes⟩ => by
    obtain ⟨text, htext, hlexes⟩ := lexes_java he
    obtain ⟨texts, htexts, hmore⟩ := lexes_more hes
    refine ⟨text :: texts, by simp only [javaAll, htext, htexts]; rfl, ?_⟩
    have hall := lexes_comma.append (hlexes.append hmore (head_more texts)) fun _ _ _ _ => trivial
    simpa [moreLexemes, moreText] using hall

end

/-- Java reads an emitted expression as it is meant exactly if no `OR` without parentheses stands on
the left of an `AND` in it. -/
theorem read_java {e : Expr} (he : e.Emittable) :
    ∃ text, e.java = .ok text ∧ (Java.read text = some e.javaTree ↔ e.Unmixed) := by
  obtain ⟨text, htext, hlexes⟩ := lexes_java he
  refine ⟨text, htext, unmixed_of_read, fun hu => ?_⟩
  have hcut := hlexes [] fun c hc => absurd hc (Option.not_mem_none c)
  have hread := isRead he hu [] [] [] fun w hw => absurd hw (Option.not_mem_none w)
  have hclose := close_spine e []
  rw [List.append_nil] at hcut hread hclose
  rw [Java.read, hcut, Java.lexemes]
  simp [hread, behindOperand, hclose, close]

end Expr

end TeachLang
