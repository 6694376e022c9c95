import TeachLang.Proofs.Slots

/-!
# Checking does not look at slots

What slots hold before checking does not matter: a tree and the cleared tree come to the same
verdict, they leave the checker alike, and where they are accepted they become one tree. Where they
are not, slots that checking did not come to still hold what they held, so the trees may differ
there.

So checking an accepted tree once more changes nothing.
-/

namespace TeachLang

variable {T U R S : Type}

/-- Two results of checking with one verdict, and one tree if it is good. -/
structure Checked.Agrees (a b : Checked T R) : Prop where
  /-- the verdict -/
  verdict : a.verdict = b.verdict
  /-- the tree -/
  tree : ∀ {found}, a.verdict = .ok found → a.tree = b.tree

/-- Two results that agree, behind which a checker goes on alike. -/
structure Checker.Agrees (a b : Checker × Checked T R) : Prop where
  /-- the checker -/
  checker : a.1 = b.1
  /-- the results -/
  result : a.2.Agrees b.2

namespace Checked

theorem Agrees.refl (a : Checked T R) : a.Agrees a := ⟨rfl, fun _ => rfl⟩

theorem Agrees.symm {a b : Checked T R} (h : a.Agrees b) : b.Agrees a :=
  ⟨h.verdict.symm, fun hb => (h.tree (h.verdict.trans hb)).symm⟩

theorem Agrees.trans {a b c : Checked T R} (h : a.Agrees b) (h' : b.Agrees c) : a.Agrees c :=
  ⟨h.verdict.trans h'.verdict, fun ha => (h.tree ha).trans (h'.tree (h.verdict.symm.trans ha))⟩

/-- Good results that agree are the same. -/
theorem Agrees.eq {a b : Checked T R} {found : R} (h : a.Agrees b) (ha : a.verdict = .ok found) :
    a = b := by
  have htree := h.tree ha
  have hverdict := h.verdict
  cases a
  cases b
  exact congrArg₂ Checked.mk htree hverdict

/-- Without a good verdict the trees do not matter. -/
theorem agrees_error {a b : T} {d : Diagnostic} :
    Agrees (⟨a, .error d⟩ : Checked T R) ⟨b, .error d⟩ := ⟨rfl, nofun⟩

/-- A slot is filled with what is found out, whatever it held; if there is a fault it keeps that. -/
theorem agrees_fill {node : Option S → T} {held held' : Option S} (result : Except Diagnostic S) :
    (fill node held result).Agrees (fill node held' result) := by
  cases result with
  | ok found => exact .refl _
  | error d => exact agrees_error

/-- The second check only comes to see the tree of the first where that is good, so it sees the
same. -/
theorem Agrees.andThen {part part' : Checked T R} {stopped stopped' : T → U}
    {next next' : T → R → Checked U S} (h : part.Agrees part')
    (hnext : ∀ tree found, (next tree found).Agrees (next' tree found)) :
    (part.andThen stopped next).Agrees (part'.andThen stopped' next') := by
  rw [Checked.andThen, Checked.andThen, ← h.verdict]
  split
  · next found hfound =>
    rw [← h.tree hfound]
    exact hnext _ _
  · exact agrees_error

theorem Agrees.map {part part' : Checked T R} (h : part.Agrees part') (f : R → S) :
    (part.map f).Agrees (part'.map f) := by
  refine ⟨congrArg (·.map f) h.verdict, fun {found} hfound => ?_⟩
  cases hpart : part.verdict with
  | ok first => exact h.tree hpart
  | error d =>
    rw [Checked.map, hpart] at hfound
    cases hfound

theorem Agrees.within {part part' : Checked T R} (h : part.Agrees part') (place : T → U) :
    (part.within place).Agrees (part'.within place) :=
  ⟨h.verdict, fun hfound => congrArg place (h.tree hfound)⟩

theorem Agrees.require {part part' : Checked T R} (h : part.Agrees part')
    (test : R → Except Diagnostic Unit) : (part.require test).Agrees (part'.require test) := by
  refine ⟨by simp only [Checked.require, h.verdict], fun {found} hfound => ?_⟩
  cases hpart : part.verdict with
  | ok first => exact h.tree hpart
  | error d =>
    rw [Checked.require, hpart] at hfound
    cases hfound

end Checked

/-! ## Expressions -/

namespace Expr

open Checked

mutual

/-- An expression is checked like the cleared one. -/
theorem check_cleared (c : Checker) : ∀ e : Expr, (e.cleared.check c).Agrees (e.check c)
  | literal .. => agrees_fill _
  | group inner _ _ => by
    rw [cleared, check, check, isBinary_cleared]
    split
    · exact (check_cleared c inner).andThen fun _ _ => .refl _
    · exact agrees_error
  | binary _ left right _ _ => by
    rw [cleared, check, check]
    exact (check_cleared c left).andThen fun _ _ =>
      (check_cleared c right).andThen fun _ _ => agrees_fill _
  | name .. => (agrees_fill _).map _
  | member receiver _ _ _ => by
    rw [cleared, check, check]
    exact (check_cleared c receiver).andThen fun _ _ => (agrees_fill _).map _
  | call _ arguments _ _ => by
    rw [cleared, check, check]
    exact (checkArguments_cleared c arguments).andThen fun _ _ => (agrees_fill _).map _
  | methodCall receiver _ arguments _ _ => by
    rw [cleared, check, check]
    exact (checkArguments_cleared c arguments).andThen fun _ _ =>
      (check_cleared c receiver).andThen fun _ _ => (agrees_fill _).map _

theorem checkArguments_cleared (c : Checker) : ∀ es : List Expr,
    (checkArguments c (allCleared es)).Agrees (checkArguments c es)
  | [] => .refl _
  | e :: es => by
    rw [allCleared, checkArguments, checkArguments]
    exact (check_cleared c e).andThen fun _ _ =>
      (checkArguments_cleared c es).andThen fun _ _ => .refl _

end

theorem checkAs_cleared (c : Checker) (required : Ty) (e : Expr) :
    (e.cleared.checkAs c required).Agrees (e.checkAs c required) := by
  rw [checkAs, checkAs, span_cleared]
  exact (e.check_cleared c).require _

end Expr

/-! ## Statements -/

namespace Checker

theorem Agrees.of_result {c : Checker} {a b : Checked T R} (h : a.Agrees b) :
    Agrees (c, a) (c, b) := ⟨rfl, h⟩

theorem checkValue_cleared (c : Checker) (value : Option Expr) :
    (c.checkValue (value.map Expr.cleared)).Agrees (c.checkValue value) := by
  cases value with
  | none => exact .refl _
  | some e =>
    rw [Option.map_some, checkValue, checkValue, e.span_cleared]
    exact ((e.check_cleared c).map _).within _

/-- A declaration is checked like the cleared one, whatever its slot held. -/
theorem checkVariable_cleared (c : Checker) (n : String) (typeName : Option String)
    (value : Option Expr) (held held' : Option Variable) (position : Position)
    (node : Option Expr → Option Variable → T) :
    Agrees (c.checkVariable n typeName (value.map Expr.cleared) held position node)
      (c.checkVariable n typeName value held' position node) := by
  obtain ⟨hverdict, htree⟩ := c.checkValue_cleared value
  unfold checkVariable
  split
  · exact .of_result Checked.agrees_error
  · simp only
    rw [← hverdict]
    split
    · exact .of_result Checked.agrees_error
    · next found hfound =>
      rw [← htree hfound]
      exact ⟨by split <;> [rfl; (split <;> rfl)], by
        split
        · exact Checked.agrees_error
        · split
          · exact Checked.agrees_error
          · exact .refl _⟩

end Checker

namespace Stmt

open Checker

mutual

/-- A statement is checked like the cleared one, and leaves the checker alike. -/
theorem check_cleared : ∀ (stmt : Stmt) (c : Checker),
    Agrees (stmt.cleared.check c) (stmt.check c)
  | expression e _, c => by
    rw [cleared, check, check, e.isCall_cleared]
    split
    · exact .of_result (((e.check_cleared c).map _).within _)
    · exact .of_result Checked.agrees_error
  | declaration n typeName value held _, c => by
    rw [cleared, check, check]
    exact c.checkVariable_cleared n typeName value none held _ _
  | assignment target value _, c => by
    rw [cleared, check, check, target.isAccess_cleared, target.span_cleared]
    split
    · exact .of_result ((target.check_cleared c).andThen fun _ ty =>
        ((value.checkAs_cleared c ty).map _).within _)
    · exact .of_result Checked.agrees_error
  | conditional condition thenBody elseBody _, c => by
    rw [cleared, check, check, isEmpty_allCleared]
    refine .of_result ((condition.checkAs_cleared c .boolean).andThen fun _ _ => ?_)
    split
    · exact Checked.agrees_error
    · exact (checkAll_cleared thenBody c.enter).result.andThen fun _ _ =>
        (checkAll_cleared elseBody c.enter).result.within _
  | forEach _ items body _, c => by
    rw [cleared, check, check, isEmpty_allCleared]
    refine .of_result ((items.checkAs_cleared c .integerIterable).andThen fun _ _ => ?_)
    split
    · exact Checked.agrees_error
    · split
      · exact Checked.agrees_error
      · next inner _ => exact (checkAll_cleared body inner).result.within _
  | whileLoop condition body _, c => by
    rw [cleared, check, check]
    exact .of_result ((condition.checkAs_cleared c .boolean).andThen fun _ _ =>
      (checkAll_cleared body c.enter).result.within _)
  | returns value _, c => .of_result (((value.check_cleared c).map _).within _)

theorem checkAll_cleared : ∀ (stmts : List Stmt) (c : Checker),
    Agrees (checkAll c (allCleared stmts)) (checkAll c stmts)
  | [], _ => .of_result (.refl _)
  | stmt :: stmts, c => by
    obtain ⟨hnext, hverdict, htree⟩ := check_cleared stmt c
    rw [allCleared, checkAll, checkAll]
    simp only
    rw [← hverdict, ← hnext]
    split
    · exact .of_result Checked.agrees_error
    · next found hfound =>
      rw [← htree hfound]
      obtain ⟨hlast, hothers⟩ := checkAll_cleared stmts (stmt.cleared.check c).1
      exact ⟨hlast, hothers.within _⟩

end

end Stmt

/-! ## Programs -/

theorem Field.check_cleared (f : Field) (c : Checker) :
    Checker.Agrees (f.cleared.check c) (f.check c) :=
  c.checkVariable_cleared f.name (some f.typeName) f.value none f.binding f.span.start _

namespace Method

/-- The body of a method is checked in a scope of its own, after its slot is filled. -/
theorem checkBody_cleared (m : Method) (f : Signature) (c : Checker) :
    (checkBody c { m.cleared with callee := some f } f).Agrees
      (checkBody c { m with callee := some f } f) := by
  unfold checkBody
  simp only [cleared, parameterVariables]
  split
  · exact Checked.agrees_error
  · next inner _ => exact (Stmt.checkAll_cleared m.body inner).result.within _

/-- A method is checked like the cleared one. -/
theorem check_cleared (m : Method) (c : Checker) :
    Checker.Agrees (m.cleared.check c) (m.check c) := by
  have hsignature : c.signature m.cleared = c.signature m := rfl
  have hspan : m.cleared.span = m.span := rfl
  unfold check
  simp only [hsignature, hspan]
  split
  · exact .of_result Checked.agrees_error
  · next f _ =>
    split
    · exact .of_result Checked.agrees_error
    · next next _ => exact .of_result (m.checkBody_cleared f next)

end Method

namespace Program

/-- What holds of each field or method holds of all of them. -/
theorem checkEach_cleared {check : Checker → T → Checker × Checked T Unit} {cleared : T → T}
    (h : ∀ item c, Checker.Agrees (check c (cleared item)) (check c item)) :
    ∀ (items : List T) (c : Checker),
      Checker.Agrees (checkEach check c (items.map cleared)) (checkEach check c items)
  | [], _ => .of_result (.refl _)
  | item :: items, c => by
    obtain ⟨hnext, hverdict, htree⟩ := h item c
    rw [List.map_cons, checkEach, checkEach]
    simp only
    rw [← hverdict, ← hnext]
    split
    · exact .of_result Checked.agrees_error
    · next found hfound =>
      rw [← htree hfound]
      obtain ⟨hlast, hothers⟩ := checkEach_cleared h items (check c (cleared item)).1
      exact ⟨hlast, hothers.within _⟩

theorem entryPosition_cleared (p : Program) : p.cleared.entryPosition = p.entryPosition := by
  have hentry : isEntry ∘ Method.cleared = isEntry := rfl
  rw [entryPosition, entryPosition, cleared, List.find?_map, hentry]
  cases p.methods.find? isEntry <;> rfl

theorem checkEntry_cleared (p : Program) (c : Checker) :
    checkEntry c p.cleared = checkEntry c p := by
  rw [checkEntry, checkEntry, entryPosition_cleared]
  rfl

/-- A program comes to what it comes to when its slots are emptied before. -/
theorem check_cleared (p : Program) (c : Checker) :
    Checker.Agrees (p.cleared.check c) (p.check c) := by
  obtain ⟨hc, hverdict, htree⟩ := checkEach_cleared Field.check_cleared p.fields c
  have hfields : p.cleared.fields = p.fields.map Field.cleared := rfl
  have hmethods : p.cleared.methods = p.methods.map Method.cleared := rfl
  unfold check
  simp only [hfields, hmethods, ← hverdict, ← hc]
  split
  · exact .of_result Checked.agrees_error
  · next hok =>
    obtain ⟨hlast, hverdict', htree'⟩ := checkEach_cleared Method.check_cleared p.methods
      (checkEach Field.check c (p.fields.map Field.cleared)).1
    simp only [← hverdict', ← hlast]
    split
    · exact .of_result Checked.agrees_error
    · next hok' =>
      rw [← htree hok, ← htree' hok', checkEntry_cleared]
      exact .of_result (.refl _)

/-- Programs that are the same up to their slots come to the same verdict, leave the checker alike,
and become the same tree if they are accepted. -/
theorem check_of_cleared {p q : Program} (h : p.cleared = q.cleared) (c : Checker) :
    Checker.Agrees (p.check c) (q.check c) := by
  obtain ⟨hchecker, hresult⟩ := p.check_cleared c
  obtain ⟨hchecker', hresult'⟩ := q.check_cleared c
  rw [h] at hchecker hresult
  exact ⟨hchecker.symm.trans hchecker', hresult.symm.trans hresult'⟩

/-- Checking an accepted tree once more changes nothing. -/
theorem check_check {p : Program} {c : Checker} (h : (p.check c).2.verdict = .ok ()) :
    (p.check c).2.tree.check c = p.check c := by
  obtain ⟨hchecker, hresult⟩ := check_of_cleared (p.cleared_check c) c
  exact Prod.ext hchecker (hresult.eq (hresult.verdict.trans h))

end Program

end TeachLang
