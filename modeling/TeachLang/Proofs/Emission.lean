import TeachLang.Proofs.Emittable
import TeachLang.Proofs.Faithful
import TeachLang.Proofs.JavaTexts

/-!
# Emission

`Program.java_keeps_grouping` follows a program from its text to Java. Whatever is read from a text
is canonical and its names are names, so every expression of a program that is accepted can be
emitted, and Java reads it as it is meant if no `OR` without parentheses stands on the left of
`AND`. The language reads operators of truth values from left to right, as if they were equally
strong, where Java has `&&` before `||`.
-/

namespace TeachLang

variable {c : Checker}

/-! ## Programs that are read from texts -/

namespace Stmt

theorem mem_elseWords {stmts : List Stmt} {w : Word} (hw : w ∈ allWords stmts) :
    w ∈ elseWords stmts := by
  cases stmts with
  | nil => cases hw
  | cons stmt stmts => exact List.mem_cons_of_mem _ hw

mutual

/-- What an expression of a statement is spelled with is part of what spells the statement. -/
theorem mem_words {w : Word} {e : Expr} (hw : w ∈ e.words) :
    ∀ {stmt : Stmt}, e ∈ stmt.expressions → w ∈ stmt.words
  | .expression .., he => by
    obtain rfl := List.mem_singleton.mp he
    simp [words, hw]
  | .declaration .., he => by
    obtain rfl := Option.mem_toList.mp he
    simp [words, valueWords, hw]
  | .assignment .., he => by
    rcases List.mem_cons.mp he with rfl | he
    · simp [words, hw]
    · obtain rfl := List.mem_singleton.mp he
      simp [words, valueWords, hw]
  | .conditional .., he => by
    rcases List.mem_cons.mp he with rfl | he
    · simp [words, hw]
    · rcases List.mem_append.mp he with he | he
      · simp [words, mem_allWords hw he]
      · simp [words, mem_elseWords (mem_allWords hw he)]
  | .forEach .., he => by
    rcases List.mem_cons.mp he with rfl | he
    · simp [words, hw]
    · simp [words, mem_allWords hw he]
  | .whileLoop .., he => by
    rcases List.mem_cons.mp he with rfl | he
    · simp [words, hw]
    · simp [words, mem_allWords hw he]
  | .returns .., he => by
    obtain rfl := List.mem_singleton.mp he
    simp [words, hw]

theorem mem_allWords {w : Word} {e : Expr} (hw : w ∈ e.words) :
    ∀ {stmts : List Stmt}, e ∈ allExpressions stmts → w ∈ allWords stmts
  | _ :: _, he => by
    rcases List.mem_append.mp he with he | he
    · exact List.mem_append_left _ (mem_words hw he)
    · exact List.mem_append_right _ (mem_allWords hw he)

end

mutual

/-- The expressions of a canonical statement are canonical. -/
theorem canonical_of_mem {e : Expr} : ∀ {stmt : Stmt}, stmt.Canonical → e ∈ stmt.expressions →
    e.Canonical
  | .expression .., h, he | .returns .., h, he => by
    obtain rfl := List.mem_singleton.mp he
    exact h
  | .declaration .., h, he => h e (Option.mem_toList.mp he)
  | .assignment .., ⟨htarget, hvalue⟩, he => by
    rcases List.mem_cons.mp he with rfl | he
    · exact htarget
    · obtain rfl := List.mem_singleton.mp he
      exact hvalue
  | .conditional .., ⟨hcondition, hthen, helse⟩, he => by
    rcases List.mem_cons.mp he with rfl | he
    · exact hcondition
    · rcases List.mem_append.mp he with he | he
      · exact canonical_of_mem_all hthen he
      · exact canonical_of_mem_all helse he
  | .forEach .., ⟨hitems, hbody⟩, he => by
    rcases List.mem_cons.mp he with rfl | he
    · exact hitems
    · exact canonical_of_mem_all hbody he
  | .whileLoop .., ⟨hcondition, hbody⟩, he => by
    rcases List.mem_cons.mp he with rfl | he
    · exact hcondition
    · exact canonical_of_mem_all hbody he

theorem canonical_of_mem_all {e : Expr} : ∀ {stmts : List Stmt}, AllCanonical stmts →
    e ∈ allExpressions stmts → e.Canonical
  | _ :: _, ⟨hfirst, hothers⟩, he => by
    rcases List.mem_append.mp he with he | he
    · exact canonical_of_mem hfirst he
    · exact canonical_of_mem_all hothers he

end

end Stmt

namespace Program

theorem canonical_of_mem {p : Program} (h : p.Canonical) {e : Expr} (he : e ∈ p.expressions) :
    e.Canonical := by
  rcases List.mem_append.mp he with he | he
  · obtain ⟨f, hf, he⟩ := List.mem_flatMap.mp he
    exact h.fields f hf e (Option.mem_toList.mp he)
  · obtain ⟨m, hm, he⟩ := List.mem_flatMap.mp he
    exact Stmt.canonical_of_mem_all (h.methods m hm) he

theorem mem_words {p : Program} {e : Expr} (he : e ∈ p.expressions) {w : Word} (hw : w ∈ e.words) :
    w ∈ p.words := by
  rcases List.mem_append.mp he with he | he
  · obtain ⟨f, hf, he⟩ := List.mem_flatMap.mp he
    refine List.mem_append_left _ (List.mem_flatMap.mpr ⟨f, hf, ?_⟩)
    simp [Field.words, Option.mem_toList.mp he, valueWords, hw]
  · obtain ⟨m, hm, he⟩ := List.mem_flatMap.mp he
    refine List.mem_append_right _ (List.mem_flatMap.mpr ⟨m, hm, ?_⟩)
    simp [Method.words, Stmt.mem_allWords hw he]

end Program

/-- Leaving out `ELSE` adds no word. -/
theorem subset_withoutEmptyElse (ws : List Word) : withoutEmptyElse ws ⊆ ws := by
  induction ws with
  | nil => exact List.Subset.refl _
  | cons w ws ih =>
    rw [withoutEmptyElse]
    split
    · exact List.subset_cons_of_subset w ih
    · exact List.cons_subset_cons w ih

namespace Token

theorem wellFormed_of_writable {token : Token} (h : token.word.Writable) : token.WellFormed := by
  obtain ⟨kind, value, span⟩ := token
  cases kind <;> first | exact h | trivial

end Token

/-- A program that is read from a text is canonical, and its names are names. -/
theorem Program.names_of_parse {source file : String} {tokens : List Token} {p : Program}
    (htokens : Token.tokenize source file = .ok tokens) (hp : Program.parse tokens file = .ok p) :
    p.Canonical ∧ Word.AllNames p.words := by
  obtain ⟨words, hwords, hafter⟩ := Token.writableAfter_of_tokenize htokens
  obtain ⟨before, last, rfl, hbefore, hlast⟩ := List.map_eq_append_iff.mp hwords
  obtain ⟨close, rfl, hclose⟩ := List.map_eq_singleton_iff.mp hlast
  have hwritable : ∀ token ∈ before, token.word.Writable := fun token htoken =>
    Word.writable_of_writableAfter hafter _ (hbefore ▸ List.mem_map_of_mem htoken)
  have hend : ∀ token ∈ some close, token.kind = .eof := fun token htoken => by
    obtain rfl := Option.some.inj htoken
    exact congrArg Prod.fst hclose
  obtain ⟨hcanonical, hread⟩ := words_of_parse
    (fun token htoken => Token.wellFormed_of_writable (hwritable token htoken)) hend hp
  refine ⟨hcanonical, fun n hn => ?_⟩
  rw [hread] at hn
  obtain ⟨token, htoken, hplain⟩ := List.mem_map.mp (subset_withoutEmptyElse _ hn)
  have hkind : token.kind = .identifier := by rw [← token.fst_plain, hplain]
  have hword : token.word = (.identifier, n) := by
    rw [← hplain, Token.plain, hkind]
  have hname := hwritable token htoken
  rw [hword] at hname
  exact hname.1

/-- The expressions of a program that is read from a text are legible. -/
theorem Program.legible_of_parse {source file : String} {tokens : List Token} {p : Program}
    (htokens : Token.tokenize source file = .ok tokens) (hp : Program.parse tokens file = .ok p) :
    ∀ e ∈ p.expressions, e.Legible := by
  obtain ⟨hcanonical, hnames⟩ := names_of_parse htokens hp
  intro e he
  exact ⟨canonical_of_mem hcanonical he, hnames.of_subset fun _ hw => mem_words he hw⟩

/-! ## Emission -/

namespace Expr

mutual

/-- Parts of what can be emitted can be emitted. -/
theorem Emittable.of_mem_parts {part : Expr} : ∀ {e : Expr}, e.Emittable → part ∈ e.parts →
    part.Emittable
  | .literal .., h, hpart | .name .., h, hpart => by
    obtain rfl := List.mem_singleton.mp hpart
    exact h
  | .group .., h, hpart => by
    rcases List.mem_cons.mp hpart with rfl | hpart
    · exact h
    · exact h.2.of_mem_parts hpart
  | .binary .., h, hpart => by
    rcases List.mem_cons.mp hpart with rfl | hpart
    · exact h
    · rcases List.mem_append.mp hpart with hpart | hpart
      · exact h.2.1.of_mem_parts hpart
      · exact h.2.2.1.of_mem_parts hpart
  | .member .., h, hpart => by
    rcases List.mem_cons.mp hpart with rfl | hpart
    · exact h
    · exact h.1.of_mem_parts hpart
  | .call .., h, hpart => by
    rcases List.mem_cons.mp hpart with rfl | hpart
    · exact h
    · exact AllEmittable.of_mem_parts h.1 hpart
  | .methodCall .., h, hpart => by
    rcases List.mem_cons.mp hpart with rfl | hpart
    · exact h
    · rcases List.mem_append.mp hpart with hpart | hpart
      · exact h.1.of_mem_parts hpart
      · exact AllEmittable.of_mem_parts h.2.2.1 hpart

theorem AllEmittable.of_mem_parts {part : Expr} : ∀ {es : List Expr}, AllEmittable es →
    part ∈ allParts es → part.Emittable
  | _ :: _, h, hpart => by
    rcases List.mem_append.mp hpart with hpart | hpart
    · exact h.1.of_mem_parts hpart
    · exact AllEmittable.of_mem_parts h.2 hpart

end

end Expr

namespace Program

/-- Every expression of a program that is accepted is emitted, and Java reads what is emitted with
the operators and groups that stand in the program, except where an `OR` without parentheses is the
left operand of an `AND`. -/
theorem java_keeps_grouping {source file : String} {tokens : List Token} {p : Program}
    (htokens : Token.tokenize source file = .ok tokens) (hp : Program.parse tokens file = .ok p)
    {registry : Registry} {types : List (String × Ty)} {functions : List Signature}
    (hregistry : ∀ ty ∈ registry.types, ty.Named) (htypes : ∀ v ∈ types, v.2.Named)
    (hfunctions : ∀ f ∈ functions, f.Named)
    (hc : Checker.ofHost registry types functions = .ok c) {u : Unit}
    (h : (p.check c).2.verdict = .ok u) :
    (p.check c).2.tree.bare = p.bare ∧
      ∀ whole ∈ (p.check c).2.tree.expressions, ∀ e ∈ whole.parts,
        ∃ text, e.java = .ok text ∧ (Java.read text = some e.javaTree ↔ e.Unmixed) := by
  refine ⟨p.bare_check c, fun whole hwhole e he => Expr.read_java ?_⟩
  have hnamed := Checker.Named.ofHost hregistry htypes hfunctions hc
  exact (emittable_of_check hnamed (legible_of_parse htokens hp) h whole hwhole).of_mem_parts he

theorem ok_of_toOption {T : Type} {result : Except Diagnostic T} {found : T}
    (h : result.toOption = some found) : result = .ok found := by
  cases result with
  | error d => cases h
  | ok found' => exact congrArg _ (Option.some.inj h)

/-- What checking a text gives back, if the text is accepted. -/
def checked? (source : String) : Option Program := do
  let tokens ← (Token.tokenize source "shell").toOption
  let p ← (Program.parse tokens "shell").toOption
  let () ← (p.check .initial).2.verdict.toOption
  return (p.check .initial).2.tree

/-- A source that is accepted was read as tokens and as a program first. -/
theorem exists_of_checked? {source : String} {tree : Program} (h : checked? source = some tree) :
    ∃ tokens p, Token.tokenize source "shell" = .ok tokens ∧
      Program.parse tokens "shell" = .ok p ∧ (p.check .initial).2.verdict = .ok () ∧
      (p.check .initial).2.tree = tree := by
  obtain ⟨tokens, htokens, h⟩ := Option.bind_eq_some_iff.mp h
  obtain ⟨p, hp, h⟩ := Option.bind_eq_some_iff.mp h
  obtain ⟨u, hu, h⟩ := Option.bind_eq_some_iff.mp h
  exact ⟨tokens, p, ok_of_toOption htokens, ok_of_toOption hp, ok_of_toOption hu, Option.some.inj h⟩

/-- An `AND` whose left operand is a group, in a program. -/
def grouped : String :=
  "DEF main(): Integer DO LET a = (TRUE OR FALSE) AND 1 - 2 - 3 < 4 * 5; RETURN 0; END"

theorem grouped_kept : ∃ tree, checked? grouped = some tree ∧
    ∀ whole ∈ tree.expressions, ∀ e ∈ whole.parts,
      ∃ text, e.java = .ok text ∧ (Java.read text = some e.javaTree ↔ e.Unmixed) := by
  have hchecked : (checked? grouped).isSome = true := by decide +kernel
  obtain ⟨tree, htree⟩ := Option.isSome_iff_exists.mp hchecked
  obtain ⟨tokens, p, htokens, hp, hverdict, rfl⟩ := exists_of_checked? htree
  have hhost : Checker.ofHost .builtin [] [] = .ok .initial := rfl
  have hkept := java_keeps_grouping htokens hp (fun ty hty => Ty.named_of_mem_builtins hty)
    (by simp) (by simp) hhost hverdict
  exact ⟨_, htree, hkept.2⟩

/-- An `AND` whose left operand is an `OR`, in a program. -/
def mixed : String := "DEF main(): Integer DO LET a = TRUE OR FALSE AND FALSE; RETURN 0; END"

/-- Java reads the operands of the `OR` in another way than they stand in the program. -/
theorem mixed_regrouped : ∃ tree, checked? mixed = some tree ∧ ∃ e ∈ tree.expressions,
    e.java = .ok "true || false && false" ∧
    e.javaTree = .binary .and (.binary .or (.name "true") (.name "false")) (.name "false") ∧
    Java.read "true || false && false" =
      some (.binary .or (.name "true") (.binary .and (.name "false") (.name "false"))) ∧
    ¬ ∃ text, e.java = .ok text ∧ Java.read text = some e.javaTree := by
  have hfirst : ((checked? mixed).bind (·.expressions.head?)).map
      (fun e => (e.java.toOption, e.javaTree)) = some (some "true || false && false",
        .binary .and (.binary .or (.name "true") (.name "false")) (.name "false")) := by cbv
  have hread : Java.read "true || false && false" =
      some (.binary .or (.name "true") (.binary .and (.name "false") (.name "false"))) := by cbv
  obtain ⟨e, he, heq⟩ := Option.map_eq_some_iff.mp hfirst
  obtain ⟨tree, htree, hhead⟩ := Option.bind_eq_some_iff.mp he
  obtain ⟨hjava, hmeant⟩ := Prod.mk.inj heq
  have hjava := ok_of_toOption hjava
  refine ⟨tree, htree, e, List.mem_of_head? hhead, hjava, hmeant, hread, ?_⟩
  rintro ⟨text, htext, hkept⟩
  obtain rfl := Except.ok.inj (hjava.symm.trans htext)
  rw [hread, hmeant] at hkept
  cases hkept

end Program

end TeachLang
