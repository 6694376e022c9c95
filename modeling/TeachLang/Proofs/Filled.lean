import TeachLang.Java
import TeachLang.Proofs.Parts
import Mathlib.Tactic.Tauto

/-!
# Filled trees

Emission asks for slots and for nothing else: a program can be emitted exactly if all of its slots
are filled, and where one is empty the fault is that of a node that was not checked. `Java.Needs`
says this of the emission of a part and the slots in it.
-/

namespace TeachLang

variable {α β : Type}

/-! ## Slots -/

/-- The slots of an expression and of all expressions in it are filled. -/
def Expr.Filled (e : Expr) : Prop := ∀ part ∈ e.parts, part.ty?.isSome

/-- The slot of a statement is filled, if it has one. -/
def Stmt.SlotFilled : Stmt → Prop
  | .declaration _ _ _ binding _ => binding.isSome
  | _ => True

/-- The slots in a statement are filled, and those in its expressions. -/
def Stmt.Filled (stmt : Stmt) : Prop :=
  (∀ s ∈ stmt.statements, s.SlotFilled) ∧ ∀ e ∈ stmt.expressions, e.Filled

/-- The slots in statements are filled, and those in their expressions. -/
def Stmt.AllFilled (stmts : List Stmt) : Prop :=
  (∀ stmt ∈ allStatements stmts, stmt.SlotFilled) ∧ ∀ e ∈ allExpressions stmts, e.Filled

/-- All slots of a program are filled. -/
structure Program.Filled (p : Program) : Prop where
  /-- those of its fields -/
  fields : ∀ f ∈ p.fields, f.binding.isSome
  /-- those of its methods -/
  methods : ∀ m ∈ p.methods, m.callee.isSome
  /-- those of the declarations in its methods -/
  statements : ∀ stmt ∈ p.statements, stmt.SlotFilled
  /-- those of all expressions -/
  expressions : ∀ e ∈ p.parts, e.ty?.isSome

/-! ## What emission needs -/

namespace Java

/-- A result that there is exactly if something is given, and else the fault of a node that was not
checked. -/
def Needs (given : Prop) : Except Diagnostic α → Prop
  | .ok _ => given
  | .error d => ¬ given ∧ d.fault = .unanalyzedNode

theorem needs_nothing (result : α) : Needs True (.ok result) := trivial

/-- A slot that is read must be filled, and that is enough. -/
theorem needs_filled (slot : Option α) (span : Span) : Needs slot.isSome (filled slot span) := by
  cases slot with
  | none => exact ⟨by simp, rfl⟩
  | some held => rfl

theorem Needs.iff {a b : Prop} {result : Except Diagnostic α} (h : Needs a result) (hab : a ↔ b) :
    Needs b result := by
  rwa [← propext hab]

/-- What is made of two results needs what both need. -/
theorem Needs.bind {a b : Prop} {first : Except Diagnostic α} {next : α → Except Diagnostic β}
    (h : Needs a first) (hnext : ∀ result, Needs b (next result)) :
    Needs (a ∧ b) (first >>= next) := by
  cases first with
  | error d => exact ⟨fun hab => h.1 hab.1, h.2⟩
  | ok result =>
    have hb := hnext result
    change Needs (a ∧ b) (next result)
    cases hresult : next result <;> rw [hresult] at hb
    · exact ⟨fun hab => hb.1 hab.2, hb.2⟩
    · exact ⟨h, hb⟩

/-- What is made of a result needs what that needs. -/
theorem Needs.map {a : Prop} {first : Except Diagnostic α} {f : α → β} (h : Needs a first) :
    Needs a (first >>= fun result => pure (f result)) :=
  (h.bind fun result => needs_nothing (f result)).iff (and_true a).to_iff

/-- A list needs what its items need. -/
theorem Needs.mapM {f : α → Except Diagnostic β} {given : α → Prop}
    (h : ∀ item, Needs (given item) (f item)) :
    ∀ items : List α, Needs (∀ item ∈ items, given item) (items.mapM f)
  | [] => (needs_nothing []).iff (by simp)
  | item :: items => by
    rw [List.mapM_cons]
    exact ((h item).bind fun _ => (Needs.mapM h items).map).iff List.forall_mem_cons.symm

end Java

open Java

namespace Expr

mutual

/-- An expression can be emitted exactly if it is filled. -/
theorem java_needs : ∀ e : Expr, Needs e.Filled e.java
  | literal value ty span => (needs_filled ty span).map.iff (by simp [Filled, parts, ty?])
  | group inner ty span =>
    ((needs_filled ty span).bind fun _ => (java_needs inner).map).iff
      (by simp [Filled, parts, ty?])
  | binary operator left right ty span =>
    ((needs_filled ty span).bind fun _ => (java_needs left).bind fun _ =>
      (java_needs right).map).iff
        (by simp [Filled, parts, ty?, or_imp, forall_and])
  | name n binding span => (needs_filled binding span).map.iff (by simp [Filled, parts, ty?])
  | member receiver n binding span =>
    ((needs_filled binding span).bind fun _ => (java_needs receiver).map).iff
      (by simp [Filled, parts, ty?])
  | call n arguments callee span =>
    ((needs_filled callee span).bind fun _ => (javaAll_needs arguments).map).iff
      (by simp [Filled, parts, ty?])
  | methodCall receiver n arguments callee span =>
    ((needs_filled callee span).bind fun _ => (java_needs receiver).bind fun _ =>
      (javaAll_needs arguments).map).iff
        (by simp [Filled, parts, ty?, or_imp, forall_and])

theorem javaAll_needs : ∀ es : List Expr,
    Needs (∀ part ∈ allParts es, part.ty?.isSome) (javaAll es)
  | [] => (needs_nothing []).iff (by simp [allParts])
  | e :: es => ((java_needs e).bind fun _ => (javaAll_needs es).map).iff
    (by simp [Filled, allParts, or_imp, forall_and])

end

end Expr

/-- A declaration needs nothing but its first value, as its own slot was read before. -/
theorem Java.declaration_needs (v : Variable) (value : Option Expr) :
    Needs (∀ e ∈ value.toList, e.Filled) (declaration v value) := by
  cases value with
  | none => exact (needs_nothing _).iff (by simp)
  | some e => exact (e.java_needs.map (f := fun text => some text)).map.iff (by simp)

namespace Stmt

/-! A block and what stands in front of it are filled exactly if each of the two is. -/

/-- A statement is filled if its parts are; so it is with the others that have blocks. -/
theorem filled_conditional {condition : Expr} {thenBody elseBody : List Stmt} {span : Span} :
    (conditional condition thenBody elseBody span).Filled ↔
      condition.Filled ∧ AllFilled thenBody ∧ AllFilled elseBody := by
  have hslot : (conditional condition thenBody elseBody span).SlotFilled := trivial
  simp only [Filled, AllFilled, statements, expressions, List.forall_mem_cons,
    List.forall_mem_append, hslot]
  tauto

theorem filled_forEach {n : String} {items : Expr} {body : List Stmt} {span : Span} :
    (forEach n items body span).Filled ↔ items.Filled ∧ AllFilled body := by
  have hslot : (forEach n items body span).SlotFilled := trivial
  simp only [Filled, AllFilled, statements, expressions, List.forall_mem_cons, hslot]
  tauto

theorem filled_whileLoop {condition : Expr} {body : List Stmt} {span : Span} :
    (whileLoop condition body span).Filled ↔ condition.Filled ∧ AllFilled body := by
  have hslot : (whileLoop condition body span).SlotFilled := trivial
  simp only [Filled, AllFilled, statements, expressions, List.forall_mem_cons, hslot]
  tauto

theorem allFilled_cons {stmt : Stmt} {stmts : List Stmt} :
    AllFilled (stmt :: stmts) ↔ stmt.Filled ∧ AllFilled stmts := by
  simp only [Filled, AllFilled, allStatements, allExpressions, List.forall_mem_append]
  tauto

mutual

/-- A statement can be emitted exactly if it is filled. -/
theorem java_needs (depth : Nat) : ∀ stmt : Stmt, Needs stmt.Filled (stmt.java depth)
  | expression e _ => e.java_needs.map.iff (by simp [Filled, statements, expressions, SlotFilled])
  | declaration _ _ value binding span =>
    ((needs_filled binding span).bind fun v => (declaration_needs v value).map).iff
      (by simp [Filled, statements, expressions, SlotFilled])
  | assignment target value _ =>
    (target.java_needs.bind fun _ => value.java_needs.map).iff
      (by simp [Filled, statements, expressions, SlotFilled])
  | conditional condition thenBody elseBody _ =>
    (condition.java_needs.bind fun _ => (javaAll_needs (depth + 1) thenBody).bind fun _ =>
      (javaAll_needs (depth + 1) elseBody).map).iff filled_conditional.symm
  | forEach _ items body _ =>
    (items.java_needs.bind fun _ => (javaAll_needs (depth + 1) body).map).iff filled_forEach.symm
  | whileLoop condition body _ =>
    (condition.java_needs.bind fun _ => (javaAll_needs (depth + 1) body).map).iff
      filled_whileLoop.symm
  | returns value _ =>
    value.java_needs.map.iff (by simp [Filled, statements, expressions, SlotFilled])

theorem javaAll_needs (depth : Nat) : ∀ stmts : List Stmt,
    Needs (AllFilled stmts) (javaAll depth stmts)
  | [] => (needs_nothing []).iff (by simp [AllFilled, allStatements, allExpressions])
  | stmt :: stmts =>
    ((java_needs depth stmt).bind fun _ => (javaAll_needs depth stmts).map).iff
      allFilled_cons.symm

end

end Stmt

/-! ## Programs -/

theorem Field.java_needs (f : Field) :
    Needs (f.binding.isSome ∧ ∀ e ∈ f.value.toList, e.Filled) f.java :=
  (needs_filled f.binding f.span).bind fun v => (declaration_needs v f.value).map

/-- A method needs its signature and its body. -/
theorem Method.java_needs (m : Method) :
    Needs (m.callee.isSome ∧ Stmt.AllFilled m.body) m.java :=
  (needs_filled m.callee m.span).bind fun _ => (Stmt.javaAll_needs 2 m.body).map

namespace Program

/-- A program is filled if its fields and methods are. -/
theorem filled_iff (p : Program) : p.Filled ↔
    (∀ f ∈ p.fields, f.binding.isSome ∧ ∀ e ∈ f.value.toList, e.Filled) ∧
      ∀ m ∈ p.methods, m.callee.isSome ∧ Stmt.AllFilled m.body := by
  constructor
  · intro h
    refine ⟨fun f hf => ⟨h.fields f hf, fun e he part hpart => ?_⟩, fun m hm =>
      ⟨h.methods m hm, fun stmt hstmt => ?_, fun e he part hpart => ?_⟩⟩
    · exact h.expressions part (mem_parts_of_field hf he hpart)
    · exact h.statements stmt (List.mem_flatMap.mpr ⟨m, hm, hstmt⟩)
    · exact h.expressions part (mem_parts_of_method hm he hpart)
  · rintro ⟨hfields, hmethods⟩
    refine ⟨fun f hf => (hfields f hf).1, fun m hm => (hmethods m hm).1, fun stmt hstmt => ?_,
      fun part hpart => ?_⟩
    · obtain ⟨m, hm, hstmt⟩ := List.mem_flatMap.mp hstmt
      exact (hmethods m hm).2.1 stmt hstmt
    · obtain ⟨e, he, hpart⟩ := List.mem_flatMap.mp hpart
      rcases List.mem_append.mp he with he | he
      · obtain ⟨f, hf, he⟩ := List.mem_flatMap.mp he
        exact (hfields f hf).2 e he part hpart
      · obtain ⟨m, hm, he⟩ := List.mem_flatMap.mp he
        exact (hmethods m hm).2.2 e he part hpart

/-- A program can be emitted exactly if it is filled. -/
theorem java_needs (p : Program) : Needs p.Filled p.java := by
  have hlines : Needs p.Filled p.javaLines :=
    ((Needs.mapM Field.java_needs p.fields).bind fun _ =>
      (Needs.mapM Method.java_needs p.methods).map).iff p.filled_iff.symm
  exact hlines.map

end Program

end TeachLang
