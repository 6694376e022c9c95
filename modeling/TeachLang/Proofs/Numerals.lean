import Mathlib
import TeachLang.Syntax.ReadExpr

/-!
# The plain spelling of numbers

Of all the ways to write a number one is **plain**: no sign of plus, no zeros in front that could be
left out, no minus before a zero, and a decimal with all its places. `plainNumber` makes the plain
spelling of any other, on the text alone; `integerText` and `Decimal.positional` spell the numbers
themselves.

* `integer?_written` and `read?_written` say what number a written one is read as;
* `integerText_written` and `positional_written` say that spelling that number plainly gives the
  plain spelling of the text, so that nothing of it is lost but how it was spelled.
-/

namespace TeachLang

namespace Text

/-! ## Digits -/

/-- One digit or more, and nothing else. -/
structure IsDigits (cs : List Char) : Prop where
  /-- there are some -/
  ne_nil : cs ≠ []
  /-- all of them are digits -/
  isDigit : ∀ c ∈ cs, c.isDigit = true

/-- The last `count` digits of a number, with zeros in front where there are not as many. -/
def lastDigits : Nat → Nat → List Char
  | 0, _ => []
  | count + 1, n => lastDigits count (n / 10) ++ [Nat.digitChar (n % 10)]

/-- Digits without the zeros in front, the last digit apart. What follows the digits stays. -/
def trimZeros : List Char → List Char
  | '0' :: c :: cs => if c.isDigit then trimZeros (c :: cs) else '0' :: c :: cs
  | cs => cs

theorem IsDigits.append {cs ds : List Char} (hcs : IsDigits cs) (hds : IsDigits ds) :
    IsDigits (cs ++ ds) :=
  ⟨fun h => hcs.ne_nil (List.append_eq_nil_iff.mp h).1, fun c hc =>
    (List.mem_append.mp hc).elim (hcs.isDigit c) (hds.isDigit c)⟩

theorem isDigits_digits (n : Nat) : IsDigits (digits n) :=
  ⟨Nat.toDigits_ne_nil, fun _ hc => Nat.isDigit_of_mem_toDigits (by decide) (by decide) hc⟩

theorem toNat_of_isDigit {c : Char} (h : c.isDigit = true) :
    48 ≤ c.toNat ∧ c.toNat ≤ 57 := by
  rw [Char.isDigit, Bool.and_eq_true, decide_eq_true_eq, decide_eq_true_eq] at h
  exact h

/-- A digit is the digit of what it stands for. -/
theorem digitChar_toNat {c : Char} (h : c.isDigit = true) : Nat.digitChar (c.toNat - 48) = c := by
  have hrange := toNat_of_isDigit h
  apply Char.toNat_inj.mp
  rw [Nat.toNat_digitChar_of_lt_ten (by omega)]
  omega

/-! ## What digits denote -/

theorem digitsValue_cons (c : Char) (cs : List Char) :
    digitsValue (c :: cs) = 10 ^ cs.length * (c.toNat - 48) + digitsValue cs := by
  change Nat.ofDigitChars 10 (c :: cs) 0 = _ * _ + Nat.ofDigitChars 10 cs 0
  rw [Nat.ofDigitChars_cons, Nat.ofDigitChars_eq_ofDigitChars_zero, Nat.mul_zero, Nat.zero_add]
  rfl

theorem digitsValue_append (cs ds : List Char) :
    digitsValue (cs ++ ds) = 10 ^ ds.length * digitsValue cs + digitsValue ds := by
  change Nat.ofDigitChars 10 (cs ++ ds) 0 = _ * Nat.ofDigitChars 10 cs 0 + Nat.ofDigitChars 10 ds 0
  rw [Nat.ofDigitChars_append, Nat.ofDigitChars_eq_ofDigitChars_zero]

theorem digitsValue_digits (n : Nat) : digitsValue (digits n) = n := Nat.ofDigitChars_ten_toDigits

theorem digitsValue_concat {c : Char} (cs : List Char) :
    digitsValue (cs ++ [c]) = 10 * digitsValue cs + (c.toNat - 48) := by
  rw [digitsValue_append]
  rw [digitsValue_cons]
  simp [digitsValue]

theorem digitsValue_lt {cs : List Char} (h : ∀ c ∈ cs, c.isDigit = true) :
    digitsValue cs < 10 ^ cs.length := by
  induction cs with
  | nil => exact Nat.one_pos
  | cons c cs ih =>
    rw [digitsValue_cons, List.length_cons, Nat.pow_succ]
    have hc := toNat_of_isDigit (h c (List.mem_cons_self ..))
    have hcs := ih fun d hd => h d (List.mem_cons_of_mem _ hd)
    have hmul : 10 ^ cs.length * (c.toNat - 48) ≤ 10 ^ cs.length * 9 :=
      Nat.mul_le_mul_left _ (by omega)
    omega

/-- Only zeros denote zero. -/
theorem digitsValue_eq_zero {cs : List Char} (h : ∀ c ∈ cs, c.isDigit = true) :
    digitsValue cs = 0 ↔ ∀ c ∈ cs, c = '0' := by
  induction cs with
  | nil => exact ⟨fun _ _ hc => (nomatch hc), fun _ => rfl⟩
  | cons c cs ih =>
    have hc := toNat_of_isDigit (h c (List.mem_cons_self ..))
    have hpow : 0 < 10 ^ cs.length := Nat.pow_pos (by decide)
    -- a power of ten is not zero, so the digit in front of it has to be
    have hdigit : (10 ^ cs.length = 0 ∨ c.toNat - 48 = 0) ↔ c = '0' := by
      rw [← Char.toNat_inj, show '0'.toNat = 48 from rfl]
      omega
    rw [digitsValue_cons, List.forall_mem_cons, Nat.add_eq_zero_iff, Nat.mul_eq_zero, hdigit,
      ih fun d hd => h d (List.mem_cons_of_mem _ hd)]

/-! ## Digits of what digits denote -/

theorem length_lastDigits (count n : Nat) : (lastDigits count n).length = count := by
  induction count generalizing n with
  | zero => rfl
  | succ count ih => rw [lastDigits, List.length_append, ih]; rfl

theorem isDigit_lastDigits {count n : Nat} : ∀ c ∈ lastDigits count n, c.isDigit = true := by
  induction count generalizing n with
  | zero => exact fun c hc => nomatch hc
  | succ count ih =>
    intro c hc
    rw [lastDigits, List.mem_append, List.mem_singleton] at hc
    rcases hc with hc | rfl
    · exact ih c hc
    · rw [Nat.isDigit_digitChar, decide_eq_true_eq]
      exact Nat.mod_lt _ (by decide)

theorem digitsValue_lastDigits (count n : Nat) :
    digitsValue (lastDigits count n) = n % 10 ^ count := by
  induction count generalizing n with
  | zero => rw [Nat.pow_zero, Nat.mod_one]; rfl
  | succ count ih =>
    have hdigit : (Nat.digitChar (n % 10)).toNat - 48 = n % 10 :=
      Nat.toNat_digitChar_sub_48_of_lt_ten (Nat.mod_lt _ (by decide))
    rw [lastDigits, digitsValue_concat, ih, hdigit, Nat.pow_succ, Nat.mul_comm (10 ^ count),
      Nat.mod_mul]
    omega

theorem lastDigits_concat (cs : List Char) {c : Char} (hc : c.isDigit = true) (count : Nat) :
    lastDigits (count + 1) (digitsValue (cs ++ [c])) =
      lastDigits count (digitsValue cs) ++ [c] := by
  have hrange := toNat_of_isDigit hc
  rw [lastDigits, digitsValue_concat]
  have hquotient : (10 * digitsValue cs + (c.toNat - 48)) / 10 = digitsValue cs := by omega
  have hrest : (10 * digitsValue cs + (c.toNat - 48)) % 10 = c.toNat - 48 := by omega
  rw [hquotient, hrest, digitChar_toNat hc]

/-- So many digits as there are behind some others are themselves. -/
theorem lastDigits_digitsValue (cs : List Char) {ds : List Char}
    (h : ∀ c ∈ ds, c.isDigit = true) : lastDigits ds.length (digitsValue (cs ++ ds)) = ds := by
  induction ds using List.reverseRecOn with
  | nil => rfl
  | append_singleton ds c ih =>
    rw [List.length_append, List.length_singleton, ← List.append_assoc,
      lastDigits_concat _ (h c (by simp)), ih fun d hd => h d (List.mem_append_left _ hd)]

/-- Digits behind those of a positive number are digits of a larger one. -/
theorem digits_append {n : Nat} (hn : 0 < n) {cs : List Char} (h : ∀ c ∈ cs, c.isDigit = true) :
    digits n ++ cs = digits (10 ^ cs.length * n + digitsValue cs) := by
  induction cs generalizing n with
  | nil => simp [digitsValue]
  | cons c cs ih =>
    have hc := h c (List.mem_cons_self ..)
    have hrange := toNat_of_isDigit hc
    have hlt : c.toNat - 48 < 10 := by omega
    have hfirst : digits n ++ [c] = digits (10 * n + (c.toNat - 48)) := by
      rw [digits, digits, ← Nat.toDigits_append_toDigits (by decide) hn hlt,
        Nat.toDigits_of_lt_base hlt, digitChar_toNat hc]
    rw [List.append_cons, hfirst, ih (by omega) fun d hd => h d (List.mem_cons_of_mem _ hd),
      digitsValue_cons, List.length_cons, Nat.pow_succ, Nat.mul_add, Nat.mul_assoc, Nat.add_assoc]

/-- Digits that do not begin with a zero are the digits of what they denote. -/
theorem digits_digitsValue_of_ne {c : Char} {cs : List Char} (hzero : c ≠ '0')
    (hc : c.isDigit = true) (hcs : ∀ d ∈ cs, d.isDigit = true) :
    digits (digitsValue (c :: cs)) = c :: cs := by
  have hrange := toNat_of_isDigit hc
  have hne : c.toNat ≠ 48 := fun h => hzero (Char.toNat_inj.mp h)
  have hone : digits (c.toNat - 48) = [c] := by
    rw [digits, Nat.toDigits_of_lt_base (by omega), digitChar_toNat hc]
  rw [digitsValue_cons, ← digits_append (by omega) hcs, hone]
  rfl

/-- What is left of digits without the zeros in front are the digits of what they denote. -/
theorem trimZeros_append {cs : List Char} (h : IsDigits cs) {rest : List Char}
    (hrest : ∀ c ∈ rest.head?, c.isDigit = false) :
    trimZeros (cs ++ rest) = digits (digitsValue cs) ++ rest := by
  obtain ⟨hne, hdigits⟩ := h
  induction cs with
  | nil => exact absurd rfl hne
  | cons c cs ih =>
    have hcs : ∀ d ∈ cs, d.isDigit = true := fun d hd => hdigits d (List.mem_cons_of_mem _ hd)
    by_cases hzero : c = '0'
    · subst hzero
      cases cs with
      | nil =>
        -- a single zero stays, whatever follows
        cases rest with
        | nil => rfl
        | cons d rest =>
          change (if d.isDigit then trimZeros (d :: rest) else '0' :: d :: rest) = _
          rw [hrest d rfl]
          rfl
      | cons d cs =>
        change (if d.isDigit then trimZeros (d :: cs ++ rest) else '0' :: (d :: cs ++ rest)) = _
        rw [if_pos (hcs d (List.mem_cons_self ..)), ih (List.cons_ne_nil _ _) hcs,
          digitsValue_cons '0', show '0'.toNat - 48 = 0 from rfl, Nat.mul_zero, Nat.zero_add]
    · rw [digits_digitsValue_of_ne hzero (hdigits c (List.mem_cons_self ..)) hcs]
      unfold trimZeros
      split
      · next heq => exact absurd (List.cons.inj heq).1 hzero
      · rfl

/-! ## Written numbers -/

/-- The signs that a written number can have. -/
def signs : List (List Char) := [[], ['+'], ['-']]

/-- The number of a sign and a size. -/
def signed (sign : List Char) (size : Nat) : Int := if sign = ['-'] then -size else size

/-- The sign of a number in its plain spelling. -/
def plainSign (n : Int) : List Char := if n < 0 then ['-'] else []

/-- The plain spelling of a whole number. -/
def integerText (n : Int) : String := String.ofList (plainSign n ++ digits n.natAbs)

/-- The plain spelling of a written number. -/
def plainNumber (text : String) : String :=
  let size := text.toList.dropWhile fun c => c = '+' ∨ c = '-'
  let negative := '-' ∈ text.toList ∧ ∃ c ∈ size, c ≠ '0' ∧ c ≠ '.'
  String.ofList ((if negative then ['-'] else []) ++ trimZeros size)

theorem plainSign_mem_signs (n : Int) : plainSign n ∈ signs := by
  unfold plainSign
  split
  · exact List.mem_cons_of_mem _ (List.mem_cons_of_mem _ (List.mem_cons_self ..))
  · exact List.mem_cons_self ..

theorem signed_plainSign (n : Int) : signed (plainSign n) n.natAbs = n := by
  unfold signed plainSign
  by_cases hn : n < 0
  · rw [if_pos hn, if_pos rfl]
    omega
  · rw [if_neg hn, if_neg (fun h => nomatch h)]
    omega

theorem ne_of_isDigit {c d : Char} (hc : c.isDigit = true) (hd : d.isDigit = false) : c ≠ d := by
  rintro rfl
  rw [hc] at hd
  cases hd

theorem natural?_digits {cs : List Char} (h : IsDigits cs) :
    natural? cs = some (digitsValue cs) := by
  cases cs with
  | nil => exact absurd rfl h.ne_nil
  | cons c cs =>
    have hcs : cs.all (fun d => d.isDigit || d == '_') = true := List.all_eq_true.mpr fun d hd => by
      rw [h.isDigit d (List.mem_cons_of_mem _ hd), Bool.true_or]
    rw [natural?, if_pos ⟨h.isDigit c (List.mem_cons_self ..), hcs⟩,
      List.filter_eq_self.mpr h.isDigit]

theorem integer?_digits {cs : List Char} (h : IsDigits cs) :
    integer? cs = some (digitsValue cs : Int) := by
  have hfirst : ∀ c ∈ cs, c ≠ '-' ∧ c ≠ '+' := fun c hc =>
    ⟨ne_of_isDigit (h.isDigit c hc) rfl, ne_of_isDigit (h.isDigit c hc) rfl⟩
  unfold integer?
  split
  · exact absurd rfl (hfirst _ (List.mem_cons_self ..)).1
  · exact absurd rfl (hfirst _ (List.mem_cons_self ..)).2
  · rw [natural?_digits h]
    rfl

theorem integer?_minus {cs : List Char} (h : IsDigits cs) :
    integer? ('-' :: cs) = some (-(digitsValue cs : Int)) := by
  rw [integer?, natural?_digits h]
  rfl

/-- A run that is dropped in front of digits ends where they begin. -/
theorem dropWhile_sign {sign cs rest : List Char} (h : IsDigits cs) {p : Char → Bool}
    (hp : ∀ c, c.isDigit = true → p c = false) (hsign : ∀ c ∈ sign, p c = true) :
    (sign ++ (cs ++ rest)).dropWhile p = cs ++ rest := by
  cases cs with
  | nil => exact absurd rfl h.ne_nil
  | cons c cs =>
    have hc := hp c (h.isDigit c (List.mem_cons_self ..))
    rw [List.dropWhile_append_of_pos hsign, List.cons_append, List.dropWhile_cons, hc]
    rfl

/-- Of a sign only a minus stays when signs of plus are left out. -/
theorem withoutPlus_written {sign cs rest : List Char} (hsign : sign ∈ signs) (h : IsDigits cs) :
    withoutPlus (String.ofList (sign ++ (cs ++ rest))) =
      (if sign = ['-'] then ['-'] else []) ++ (cs ++ rest) := by
  have hplus : ∀ c : Char, c.isDigit = true → decide (c = '+') = false := fun c hc =>
    decide_eq_false (ne_of_isDigit hc rfl)
  rw [withoutPlus, String.toList_ofList]
  simp only [signs, List.mem_cons, List.not_mem_nil, or_false] at hsign
  rcases hsign with rfl | rfl | rfl
  · exact dropWhile_sign h hplus fun c hc => nomatch hc
  · exact dropWhile_sign h hplus fun c hc => by rw [List.mem_singleton.mp hc]; rfl
  · rfl

/-- What a written whole number is read as. -/
theorem integer?_written {sign cs : List Char} (hsign : sign ∈ signs) (h : IsDigits cs) :
    integer? (withoutPlus (String.ofList (sign ++ cs))) = some (signed sign (digitsValue cs)) := by
  have htext := @withoutPlus_written sign cs [] hsign h
  rw [List.append_nil] at htext
  rw [htext, signed]
  split
  · exact integer?_minus h
  · exact integer?_digits h

/-- The plain spelling of a written number. -/
theorem plainNumber_written {sign cs rest : List Char} (hsign : sign ∈ signs) (h : IsDigits cs)
    (hrest : ∀ c ∈ rest.head?, c.isDigit = false) (hminus : '-' ∉ rest) :
    plainNumber (String.ofList (sign ++ (cs ++ rest))) =
      String.ofList ((if sign = ['-'] ∧ ∃ c ∈ cs ++ rest, c ≠ '0' ∧ c ≠ '.' then ['-'] else []) ++
        (digits (digitsValue cs) ++ rest)) := by
  have hsigns : ∀ c : Char, c.isDigit = true → decide (c = '+' ∨ c = '-') = false := fun c hc =>
    decide_eq_false fun hor => hor.elim (ne_of_isDigit hc rfl) (ne_of_isDigit hc rfl)
  have hsize : (sign ++ (cs ++ rest)).dropWhile (fun c => c = '+' ∨ c = '-') = cs ++ rest := by
    refine dropWhile_sign h hsigns fun c hc => decide_eq_true ?_
    simp only [signs, List.mem_cons, List.not_mem_nil, or_false] at hsign
    rcases hsign with rfl | rfl | rfl
    · cases hc
    · exact .inl (List.mem_singleton.mp hc)
    · exact .inr (List.mem_singleton.mp hc)
  -- neither the digits nor what follows can bring in a minus
  have hnegative : '-' ∈ sign ++ (cs ++ rest) ↔ sign = ['-'] := by
    have hcs : '-' ∉ cs := fun hc => ne_of_isDigit (h.isDigit _ hc) rfl rfl
    rw [List.mem_append, List.mem_append, or_iff_left (not_or.mpr ⟨hcs, hminus⟩)]
    simp only [signs, List.mem_cons, List.not_mem_nil, or_false] at hsign
    rcases hsign with rfl | rfl | rfl <;> decide
  rw [plainNumber, String.toList_ofList]
  simp only [hsize, hnegative, trimZeros_append h hrest]

theorem natAbs_signed (sign : List Char) (n : Nat) : (signed sign n).natAbs = n := by
  unfold signed
  split <;> omega

/-- Zero has no sign. -/
theorem plainSign_signed (sign : List Char) (n : Nat) :
    plainSign (signed sign n) = if sign = ['-'] ∧ n ≠ 0 then ['-'] else [] := by
  unfold plainSign signed
  by_cases hminus : sign = ['-']
  · rw [if_pos hminus]
    refine if_congr ?_ rfl rfl
    rw [and_iff_right hminus]
    omega
  · rw [if_neg hminus, if_neg (by omega), if_neg fun h => hminus h.1]

/-- Digits that denote something else than zero are not all zeros. -/
theorem digitsValue_ne_zero {cs : List Char} (h : ∀ c ∈ cs, c.isDigit = true) :
    digitsValue cs ≠ 0 ↔ ∃ c ∈ cs, c ≠ '0' ∧ c ≠ '.' := by
  rw [ne_eq, digitsValue_eq_zero h, not_forall]
  refine exists_congr fun c => ?_
  rw [Classical.not_imp]
  exact and_congr_right fun hc => (and_iff_left (ne_of_isDigit (h c hc) rfl)).symm

/-- Plainly spelled, what a written whole number is read as is that number. -/
theorem integerText_written {sign cs : List Char} (hsign : sign ∈ signs) (h : IsDigits cs) :
    integerText (signed sign (digitsValue cs)) = plainNumber (String.ofList (sign ++ cs)) := by
  have hplain := @plainNumber_written sign cs [] hsign h (fun c hc => nomatch hc) List.not_mem_nil
  rw [List.append_nil, List.append_nil] at hplain
  rw [hplain, integerText, plainSign_signed, natAbs_signed]
  simp only [digitsValue_ne_zero h.isDigit]

/-- A whole number is read from its plain spelling. -/
theorem integer?_integerText (n : Int) : integer? (withoutPlus (integerText n)) = some n := by
  rw [integerText, integer?_written (plainSign_mem_signs n) (isDigits_digits _), digitsValue_digits,
    signed_plainSign]

end Text

/-! ## Written decimals -/

namespace Decimal

open Text

/-- The plain spelling of a decimal with places. -/
def positional (d : Decimal) : String :=
  String.ofList (plainSign d.unscaled ++ (digits (d.unscaled.natAbs / tenTo d.scale.toNat) ++
    '.' :: lastDigits d.scale.toNat d.unscaled.natAbs))

theorem mantissa?_point {whole places : List Char} (hwhole : '.' ∉ whole) (hplaces : '_' ∉ places) :
    mantissa? (whole ++ '.' :: places) = some (whole ++ places, places.length) := by
  have hne : ∀ c ∈ whole, decide (c ≠ '.') = true := fun c hc =>
    decide_eq_true fun heq => hwhole (heq ▸ hc)
  have htake : (whole ++ '.' :: places).takeWhile (fun c => decide (c ≠ '.')) = whole := by
    rw [List.takeWhile_append_of_pos hne, List.takeWhile_cons_of_neg (by decide), List.append_nil]
  have hdrop : (whole ++ '.' :: places).dropWhile (fun c => decide (c ≠ '.')) = '.' :: places := by
    rw [List.dropWhile_append_of_pos hne, List.dropWhile_cons_of_neg (by decide)]
  have hfilter : places.filter (fun c => decide (c ≠ '_')) = places :=
    List.filter_eq_self.mpr fun c hc => decide_eq_true fun heq => hplaces (heq ▸ hc)
  unfold mantissa?
  simp only [htake, hdrop]
  split
  · next hnil => exact absurd hnil (by simp)
  · next hnil _ => cases hnil
  · next heq _ =>
    obtain ⟨-, rfl⟩ := List.cons.inj heq
    rw [hfilter]

/-- What a written decimal is read as. -/
theorem read?_written {sign cs ds : List Char} (hsign : sign ∈ signs) (hcs : IsDigits cs)
    (hds : IsDigits ds) :
    read? (String.ofList (withoutPlus (String.ofList (sign ++ (cs ++ '.' :: ds))))) =
      if scaleFits ds.length then some ⟨signed sign (digitsValue (cs ++ ds)), ds.length⟩
      else none := by
  have hdigits := hcs.append hds
  have hnot : ∀ c ∈ (if sign = ['-'] then ['-'] else []) ++ (cs ++ '.' :: ds),
      (decide ¬(c = 'e' ∨ c = 'E')) = true := by
    intro c hc
    rw [decide_eq_true_eq]
    -- there is no exponent: no sign, point or digit is its mark
    have hcases : c = '-' ∨ c = '.' ∨ c ∈ cs ++ ds := by
      simp only [List.mem_append, List.mem_cons, List.mem_ite_nil_right, List.not_mem_nil] at hc ⊢
      tauto
    rcases hcases with rfl | rfl | hmem
    · decide
    · decide
    · have hdigit := hdigits.isDigit c hmem
      exact fun h => h.elim (ne_of_isDigit hdigit rfl) (ne_of_isDigit hdigit rfl)
  have hmantissa : mantissa? ((if sign = ['-'] then ['-'] else []) ++ (cs ++ '.' :: ds)) =
      some ((if sign = ['-'] then ['-'] else []) ++ (cs ++ ds), ds.length) := by
    rw [← List.append_assoc, mantissa?_point, List.append_assoc]
    · intro hpoint
      rcases List.mem_append.mp hpoint with h | h
      · split at h <;> simp at h
      · exact ne_of_isDigit (hcs.isDigit _ h) rfl rfl
    · exact fun h => ne_of_isDigit (hds.isDigit _ h) rfl rfl
  have hinteger : integer? ((if sign = ['-'] then ['-'] else []) ++ (cs ++ ds)) =
      some (signed sign (digitsValue (cs ++ ds))) := by
    rw [signed]
    split
    · exact integer?_minus hdigits
    · exact integer?_digits hdigits
  rw [withoutPlus_written hsign hcs, read?, String.toList_ofList]
  simp only [List.takeWhile_eq_self_iff.mpr hnot, List.dropWhile_eq_nil_iff.mpr hnot, hmantissa,
    hinteger, exponent?, Option.bind_eq_bind, Option.bind_some, Int.sub_zero]

/-- Plainly spelled, what a written decimal is read as is that decimal. -/
theorem positional_written {sign cs ds : List Char} (hsign : sign ∈ signs) (hcs : IsDigits cs)
    (hds : IsDigits ds) :
    positional ⟨signed sign (digitsValue (cs ++ ds)), ds.length⟩ =
      plainNumber (String.ofList (sign ++ (cs ++ '.' :: ds))) := by
  have hplain := @plainNumber_written sign cs ('.' :: ds) hsign hcs
    (fun c hc => by rw [← Option.some.inj hc]; rfl) fun hmem => by
      rcases List.mem_cons.mp hmem with h | h
      · cases h
      · exact ne_of_isDigit (hds.isDigit _ h) rfl rfl
  have hnonzero : (∃ c ∈ cs ++ '.' :: ds, c ≠ '0' ∧ c ≠ '.') ↔ digitsValue (cs ++ ds) ≠ 0 := by
    rw [digitsValue_ne_zero (hcs.append hds).isDigit]
    simp only [List.mem_append, List.mem_cons]
    constructor
    · rintro ⟨c, hc | rfl | hc, hzero, hpoint⟩
      · exact ⟨c, .inl hc, hzero, hpoint⟩
      · exact absurd rfl hpoint
      · exact ⟨c, .inr hc, hzero, hpoint⟩
    · rintro ⟨c, hc, hne⟩
      exact ⟨c, hc.imp_right .inr, hne⟩
  -- the point divides the digits of the unscaled number
  have hwhole : digitsValue (cs ++ ds) / tenTo ds.length = digitsValue cs := by
    rw [digitsValue_append, tenTo, Nat.pow_eq, Nat.mul_add_div (Nat.pow_pos (by decide)),
      Nat.div_eq_of_lt (digitsValue_lt hds.isDigit), Nat.add_zero]
  rw [hplain, positional]
  simp only [hnonzero, natAbs_signed, plainSign_signed, Int.toNat_natCast, hwhole,
    lastDigits_digitsValue cs hds.isDigit]

/-- A decimal with places is read from its plain spelling. -/
theorem read?_positional {d : Decimal} (hscale : 0 < d.scale) (hfits : scaleFits d.scale = true) :
    read? (String.ofList (withoutPlus (positional d))) = some d := by
  obtain ⟨unscaled, scale⟩ := d
  obtain ⟨places, rfl⟩ := Int.eq_ofNat_of_zero_le (Int.le_of_lt hscale)
  change 0 < (places : Int) at hscale
  have hplaces : IsDigits (lastDigits places unscaled.natAbs) := by
    refine ⟨fun hnil => ?_, isDigit_lastDigits⟩
    have hlength := length_lastDigits places unscaled.natAbs
    rw [hnil, List.length_nil] at hlength
    omega
  have hread := read?_written (plainSign_mem_signs unscaled)
    (isDigits_digits (unscaled.natAbs / tenTo places)) hplaces
  have hvalue : digitsValue (digits (unscaled.natAbs / tenTo places) ++
      lastDigits places unscaled.natAbs) = unscaled.natAbs := by
    rw [digitsValue_append, digitsValue_digits, digitsValue_lastDigits, length_lastDigits]
    exact Nat.div_add_mod ..
  rw [hvalue, length_lastDigits, signed_plainSign] at hread
  rw [positional]
  simp only [Int.toNat_natCast]
  rw [hread]
  exact if_pos hfits

end Decimal

end TeachLang
