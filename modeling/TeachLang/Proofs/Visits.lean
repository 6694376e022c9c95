import TeachLang.Proofs.Accepted
import TeachLang.Proofs.Filled

/-!
# Visits

Static checking comes to the expressions of a program one after the other. A **visit** is a checker
with the expression that it comes to: the list of all visits is read off the way that checking takes
through a tree, scope by scope.

Where a tree is accepted, the visits are to its expressions, each one once and in the order of the
text, and the expressions of the filled tree are what the visits made of them. So its slots hold the
types that were found, and no slot is left empty.
-/

namespace TeachLang

variable {c : Checker}

/-- An expression, and the checker that comes to it. -/
structure Visit where
  /-- the checker -/
  checker : Checker
  /-- the expression -/
  subject : Expr

/-- What is made of the expression. -/
def Visit.outcome (v : Visit) : Checked Expr Ty := v.subject.check v.checker

/-! ## The way of checking -/

/-- The visits to an expression and to all expressions in it. -/
def Expr.visits (c : Checker) (e : Expr) : List Visit := e.parts.map (Visit.mk c)

namespace Stmt

mutual

/-- The visits to the expressions in a statement. -/
def visits (c : Checker) : Stmt → List Visit
  | expression e _ => e.visits c
  | declaration _ _ value _ _ => value.toList.flatMap (Expr.visits c)
  | assignment target value _ => target.visits c ++ value.visits c
  | conditional condition thenBody elseBody _ =>
    condition.visits c ++ (allVisits c.enter thenBody ++ allVisits c.enter elseBody)
  | forEach n items body span =>
    items.visits c ++
      match c.enter.declare (.plain n .integer) span.start with
      | .ok inner => allVisits inner body
      | .error _ => []
  | whileLoop condition body _ => condition.visits c ++ allVisits c.enter body
  | returns value _ => value.visits c

/-- The visits to the expressions in statements, each of which sees what those before declare. -/
def allVisits (c : Checker) : List Stmt → List Visit
  | [] => []
  | stmt :: stmts => stmt.visits c ++ allVisits (stmt.check c).1 stmts

end

end Stmt

/-- The visits to the expressions in a field. -/
def Field.visits (c : Checker) (f : Field) : List Visit := f.value.toList.flatMap (Expr.visits c)

/-- The checker that comes to the body of a method. -/
def Checker.within (c : Checker) (m : Method) : Except Diagnostic Checker := do
  let f ← c.signature m
  let next ← c.declareFunction f m.span.start
  next.enter.declareAll m.span.start (m.parameterVariables f)

/-- The visits to the expressions in a method. -/
def Method.visits (c : Checker) (m : Method) : List Visit :=
  match c.within m with
  | .ok inner => Stmt.allVisits inner m.body
  | .error _ => []

namespace Program

/-- The visits to the expressions in items that are checked in their order. -/
def eachVisits {T : Type} (visits : Checker → T → List Visit)
    (check : Checker → T → Checker × Checked T Unit) (c : Checker) : List T → List Visit
  | [] => []
  | item :: items => visits c item ++ eachVisits visits check (check c item).1 items

/-- The visits to the expressions in a program. -/
def visits (c : Checker) (p : Program) : List Visit :=
  eachVisits Field.visits Field.check c p.fields ++
    eachVisits Method.visits Method.check (checkEach Field.check c p.fields).1 p.methods

end Program

/-! ## What visits make -/

/-- Visits come to expressions in their order and make others of them, each with the type that was
found in its slot. -/
structure Visit.Fill (visits : List Visit) (before after : List Expr) : Prop where
  /-- what the visits come to -/
  subjects : visits.map subject = before
  /-- what they make -/
  trees : (visits.map fun v => v.outcome.tree) = after
  /-- the types -/
  typed : ∀ v ∈ visits, ∃ ty, v.outcome.verdict = .ok ty ∧ v.outcome.tree.ty? = some ty

namespace Visit.Fill

theorem nil : Fill [] [] [] := ⟨rfl, rfl, nofun⟩

theorem single {e : Expr} {ty : Ty} (h : (e.check c).verdict = .ok ty)
    (hty : (e.check c).tree.ty? = some ty) : Fill [⟨c, e⟩] [e] [(e.check c).tree] :=
  ⟨rfl, rfl, fun _ hv => List.mem_singleton.mp hv ▸ ⟨ty, h, hty⟩⟩

theorem append {visits visits' : List Visit} {before before' after after' : List Expr}
    (h : Fill visits before after) (h' : Fill visits' before' after') :
    Fill (visits ++ visits') (before ++ before') (after ++ after') := by
  refine ⟨?_, ?_, fun v hv => (List.mem_append.mp hv).elim (h.typed v) (h'.typed v)⟩
  · rw [List.map_append, h.subjects, h'.subjects]
  · rw [List.map_append, h.trees, h'.trees]

/-- No slot is left empty. -/
theorem filled {visits : List Visit} {before after : List Expr} (h : Fill visits before after) :
    ∀ e ∈ after, e.ty?.isSome := by
  intro e he
  rw [← h.trees] at he
  obtain ⟨v, hv, rfl⟩ := List.mem_map.mp he
  obtain ⟨ty, -, hty⟩ := h.typed v hv
  rw [hty]
  rfl

end Visit.Fill

/-! ## Expressions -/

namespace Expr

open Checked Visit

/-- An accepted expression holds the type that was found. -/
theorem ty?_check {e : Expr} {ty : Ty} (h : (e.check c).verdict = .ok ty) :
    (e.check c).tree.ty? = some ty := by
  cases e with
  | literal value held span =>
    obtain ⟨rfl, htree⟩ := check_literal_ok h
    rw [htree]
    rfl
  | group inner held span =>
    obtain ⟨-, -, htree⟩ := check_group_ok h
    rw [htree]
    rfl
  | binary operator left right held span =>
    obtain ⟨a, b, -, -, -, htree⟩ := check_binary_ok h
    rw [htree]
    rfl
  | name n held span =>
    obtain ⟨v, -, rfl, htree⟩ := check_name_ok h
    rw [htree]
    rfl
  | member receiver n held span =>
    obtain ⟨owner, v, -, -, rfl, htree⟩ := check_member_ok h
    rw [htree]
    rfl
  | call n arguments held span =>
    obtain ⟨tys, f, -, -, -, rfl, htree⟩ := check_call_ok h
    rw [htree]
    rfl
  | methodCall receiver n arguments held span =>
    obtain ⟨tys, owner, f, -, -, -, -, -, rfl, htree⟩ := check_methodCall_ok h
    rw [htree]
    rfl

theorem parts_eq (e : Expr) : e.parts = e :: e.parts.tail := by
  cases e <;> rfl

/-- The visit to an expression itself goes before those to the expressions in it. -/
theorem fill_of_inner {e : Expr} {ty : Ty} (h : (e.check c).verdict = .ok ty)
    (hinner : Fill (e.parts.tail.map (Visit.mk c)) e.parts.tail (e.check c).tree.parts.tail) :
    Fill (e.visits c) e.parts (e.check c).tree.parts := by
  rw [visits, parts_eq e, parts_eq (e.check c).tree]
  exact (Fill.single h (ty?_check h)).append hinner

theorem fill_append {before before' after after' : List Expr}
    (h : Fill (before.map (Visit.mk c)) before after)
    (h' : Fill (before'.map (Visit.mk c)) before' after') :
    Fill ((before ++ before').map (Visit.mk c)) (before ++ before') (after ++ after') := by
  rw [List.map_append]
  exact h.append h'

mutual

/-- The visits to an accepted expression fill it. -/
theorem fill_of_check : ∀ {e : Expr} {ty : Ty}, (e.check c).verdict = .ok ty →
    Fill (e.visits c) e.parts (e.check c).tree.parts
  | .literal value held span, ty, h => by
    refine fill_of_inner h ?_
    rw [(check_literal_ok h).2]
    exact .nil
  | .group inner held span, ty, h => by
    refine fill_of_inner h ?_
    obtain ⟨-, hfound, htree⟩ := check_group_ok h
    rw [htree]
    exact fill_of_check hfound
  | .binary operator left right held span, ty, h => by
    refine fill_of_inner h ?_
    obtain ⟨a, b, ha, hb, -, htree⟩ := check_binary_ok h
    rw [htree]
    exact fill_append (fill_of_check ha) (fill_of_check hb)
  | .name n held span, ty, h => by
    refine fill_of_inner h ?_
    obtain ⟨v, -, -, htree⟩ := check_name_ok h
    rw [htree]
    exact .nil
  | .member receiver n held span, ty, h => by
    refine fill_of_inner h ?_
    obtain ⟨owner, v, howner, -, -, htree⟩ := check_member_ok h
    rw [htree]
    exact fill_of_check howner
  | .call n arguments held span, ty, h => by
    refine fill_of_inner h ?_
    obtain ⟨tys, f, htys, -, -, -, htree⟩ := check_call_ok h
    rw [htree]
    exact fill_of_checkArguments htys
  | .methodCall receiver n arguments held span, ty, h => by
    refine fill_of_inner h ?_
    obtain ⟨tys, owner, f, htys, howner, -, -, -, -, htree⟩ := check_methodCall_ok h
    rw [htree]
    exact fill_append (fill_of_check howner) (fill_of_checkArguments htys)

theorem fill_of_checkArguments : ∀ {es : List Expr} {tys : List (Position × Ty)},
    (checkArguments c es).verdict = .ok tys →
    Fill ((allParts es).map (Visit.mk c)) (allParts es) (allParts (checkArguments c es).tree)
  | [], tys, h => .nil
  | e :: es, tys, h => by
    obtain ⟨ty, others, hty, hothers, -, htree⟩ := checkArguments_cons_ok h
    rw [htree]
    exact fill_append (fill_of_check hty) (fill_of_checkArguments hothers)

end

theorem fill_singleton {e : Expr} {ty : Ty} (h : (e.check c).verdict = .ok ty) :
    Fill (e.visits c) ([e].flatMap parts) ([(e.check c).tree].flatMap parts) := by
  rw [List.flatMap_singleton, List.flatMap_singleton]
  exact fill_of_check h

end Expr

/-! ## Statements -/

open Visit

/-- The visits to the value of a variable fill it. -/
theorem Checker.fill_of_checkValue {value : Option Expr} {found : Option (Position × Ty)}
    (h : (c.checkValue value).verdict = .ok found) :
    Fill (value.toList.flatMap (Expr.visits c)) (value.toList.flatMap Expr.parts)
      ((c.checkValue value).tree.toList.flatMap Expr.parts) := by
  cases value with
  | none => exact .nil
  | some e =>
    obtain ⟨ty, hty, -⟩ := Checked.map_ok h
    exact (Expr.fill_of_check hty).append .nil

namespace Stmt

/-- The visits to statements fill their expressions, and their own slots are filled too. -/
structure Fills (visits : List Visit) (before after : List Stmt) : Prop where
  /-- the expressions -/
  expressions : Fill visits ((allExpressions before).flatMap Expr.parts)
    ((allExpressions after).flatMap Expr.parts)
  /-- the slots of the statements, and of those in them -/
  slots : ∀ s ∈ allStatements after, s.SlotFilled

theorem Fills.cons {visits visits' : List Visit} {before after : Stmt} {others others' : List Stmt}
    (hexpressions : Fill visits (before.expressions.flatMap Expr.parts)
      (after.expressions.flatMap Expr.parts))
    (hslots : ∀ s ∈ after.statements, s.SlotFilled) (h : Fills visits' others others') :
    Fills (visits ++ visits') (before :: others) (after :: others') := by
  refine ⟨?_, ?_⟩
  · rw [allExpressions, allExpressions, List.flatMap_append, List.flatMap_append]
    exact hexpressions.append h.expressions
  · rw [allStatements]
    exact List.forall_mem_append.mpr ⟨hslots, h.slots⟩

mutual

/-- The visits to an accepted statement fill its expressions, and its own slots are filled too. -/
theorem fill_of_check : ∀ {stmt : Stmt} {c : Checker} {u : Unit},
    (stmt.check c).2.verdict = .ok u →
    Fill (stmt.visits c) (stmt.expressions.flatMap Expr.parts)
        ((stmt.check c).2.tree.expressions.flatMap Expr.parts) ∧
      ∀ s ∈ (stmt.check c).2.tree.statements, s.SlotFilled
  | .expression e span, c, u, h => by
    obtain ⟨ty, hty, heq⟩ := check_expression_ok h
    rw [heq]
    exact ⟨Expr.fill_singleton hty, List.forall_mem_singleton.mpr trivial⟩
  | .declaration name typeName value held span, c, u, h => by
    rw [check] at h ⊢
    obtain ⟨declared, found, ty, next, -, hfound, -, -, heq⟩ := Checker.checkVariable_ok h
    rw [heq]
    exact ⟨Checker.fill_of_checkValue hfound, List.forall_mem_singleton.mpr rfl⟩
  | .assignment target value span, c, u, h => by
    obtain ⟨a, b, -, ha, hb, -, heq⟩ := check_assignment_ok h
    rw [heq]
    exact ⟨(Expr.fill_of_check ha).append (Expr.fill_singleton hb),
      List.forall_mem_singleton.mpr trivial⟩
  | .conditional condition thenBody elseBody span, c, u, h => by
    obtain ⟨ty, hty, -, hthen, helse, heq⟩ := check_conditional_ok h
    rw [heq]
    obtain ⟨hfill, hslots⟩ := fills_of_checkAll hthen
    obtain ⟨hfill', hslots'⟩ := fills_of_checkAll helse
    refine ⟨(Expr.fill_of_check hty).append ?_,
      List.forall_mem_cons.mpr ⟨trivial, List.forall_mem_append.mpr ⟨hslots, hslots'⟩⟩⟩
    have hboth := hfill.append hfill'
    rwa [← List.flatMap_append, ← List.flatMap_append] at hboth
  | .forEach name items body span, c, u, h => by
    obtain ⟨ty, inner, hty, -, hinner, hbody, heq⟩ := check_forEach_ok h
    obtain ⟨hfill, hslots⟩ := fills_of_checkAll hbody
    rw [heq, visits, hinner]
    exact ⟨(Expr.fill_of_check hty).append hfill, List.forall_mem_cons.mpr ⟨trivial, hslots⟩⟩
  | .whileLoop condition body span, c, u, h => by
    obtain ⟨ty, hty, -, hbody, heq⟩ := check_whileLoop_ok h
    obtain ⟨hfill, hslots⟩ := fills_of_checkAll hbody
    rw [heq]
    exact ⟨(Expr.fill_of_check hty).append hfill, List.forall_mem_cons.mpr ⟨trivial, hslots⟩⟩
  | .returns value span, c, u, h => by
    obtain ⟨ty, hty, heq⟩ := check_returns_ok h
    rw [heq]
    exact ⟨Expr.fill_singleton hty, List.forall_mem_singleton.mpr trivial⟩

theorem fills_of_checkAll : ∀ {stmts : List Stmt} {c : Checker} {u : Unit},
    (checkAll c stmts).2.verdict = .ok u →
    Fills (allVisits c stmts) stmts (checkAll c stmts).2.tree
  | [], c, u, _ => ⟨.nil, nofun⟩
  | stmt :: stmts, c, u, h => by
    obtain ⟨hfirst, hothers, htree⟩ := checkAll_cons_ok h
    rw [htree]
    obtain ⟨hfill, hslots⟩ := fill_of_check hfirst
    exact .cons hfill hslots (fills_of_checkAll hothers)

end

end Stmt

/-! ## Programs -/

/-- The visits to an accepted field fill its value, and its own slot is filled too. -/
theorem Field.fill_of_check {f : Field} {u : Unit} (h : (f.check c).2.verdict = .ok u) :
    Fill (f.visits c) (f.value.toList.flatMap Expr.parts)
        ((f.check c).2.tree.value.toList.flatMap Expr.parts) ∧
      (f.check c).2.tree.binding.isSome := by
  rw [check] at h ⊢
  obtain ⟨declared, found, ty, next, -, hfound, -, -, heq⟩ := Checker.checkVariable_ok h
  rw [heq]
  exact ⟨Checker.fill_of_checkValue hfound, rfl⟩

/-- The visits to an accepted method fill its body, and all slots in it are filled. -/
theorem Method.fill_of_check {m : Method} {u : Unit} (h : (m.check c).2.verdict = .ok u) :
    Fill (m.visits c) ((Stmt.allExpressions m.body).flatMap Expr.parts)
        ((Stmt.allExpressions (m.check c).2.tree.body).flatMap Expr.parts) ∧
      (m.check c).2.tree.callee.isSome ∧
      ∀ s ∈ Stmt.allStatements (m.check c).2.tree.body, s.SlotFilled := by
  obtain ⟨f, next, inner, hf, hnext, hinner, hbody, heq⟩ := check_ok h
  have hwithin : c.within m = .ok inner := by
    rw [Checker.within, hf]
    change (c.declareFunction f m.span.start >>= _) = _
    rw [hnext]
    exact hinner
  obtain ⟨hfill, hslots⟩ := Stmt.fills_of_checkAll hbody
  rw [visits, hwithin, heq]
  exact ⟨hfill, rfl, hslots⟩

namespace Program

/-- Where the visits to an item fill it, those to items in their order fill them all. -/
theorem fill_of_checkEach {T : Type} {visits : Checker → T → List Visit}
    {check : Checker → T → Checker × Checked T Unit} (expressions : T → List Expr)
    (holds : T → Prop)
    (h : ∀ {c : Checker} {item : T} {u : Unit}, (check c item).2.verdict = .ok u →
      Fill (visits c item) ((expressions item).flatMap Expr.parts)
        ((expressions (check c item).2.tree).flatMap Expr.parts) ∧ holds (check c item).2.tree) :
    ∀ {items : List T} {c : Checker} {u : Unit}, (checkEach check c items).2.verdict = .ok u →
      Fill (eachVisits visits check c items) ((items.flatMap expressions).flatMap Expr.parts)
          (((checkEach check c items).2.tree.flatMap expressions).flatMap Expr.parts) ∧
        ∀ item ∈ (checkEach check c items).2.tree, holds item
  | [], c, u, _ => ⟨.nil, nofun⟩
  | item :: items, c, u, haccepted => by
    obtain ⟨hfirst, hrest, -, htrees⟩ := checkEach_cons_ok haccepted
    obtain ⟨hfill, hholds⟩ := h hfirst
    obtain ⟨hothers, hall⟩ := fill_of_checkEach expressions holds h hrest
    rw [htrees]
    refine ⟨?_, List.forall_mem_cons.mpr ⟨hholds, hall⟩⟩
    simp only [List.flatMap_cons, List.flatMap_append]
    exact hfill.append hothers

/-- The visits to an accepted program fill all expressions in it, and no slot is left empty. -/
theorem fill_of_check {p : Program} {u : Unit} (h : (p.check c).2.verdict = .ok u) :
    Fill (p.visits c) p.parts (p.check c).2.tree.parts ∧ (p.check c).2.tree.Filled := by
  obtain ⟨middle, last, fields, methods, hfields, hmethods, -, heq⟩ := check_ok h
  obtain ⟨hfill, hbindings⟩ := fill_of_checkEach (fun f => f.value.toList)
    (fun f => f.binding.isSome) Field.fill_of_check (congrArg (·.2.verdict) hfields)
  obtain ⟨hfill', hmethod⟩ := fill_of_checkEach (fun m => Stmt.allExpressions m.body)
    (fun m => m.callee.isSome ∧ ∀ s ∈ Stmt.allStatements m.body, s.SlotFilled)
    Method.fill_of_check (congrArg (·.2.verdict) hmethods)
  rw [hfields] at hfill hbindings
  rw [hmethods] at hfill' hmethod
  have hall := hfill.append hfill'
  rw [← List.flatMap_append, ← List.flatMap_append] at hall
  rw [visits, hfields, heq]
  refine ⟨hall, hbindings, fun m hm => (hmethod m hm).1, fun s hs => ?_, hall.filled⟩
  obtain ⟨m, hm, hs⟩ := List.mem_flatMap.mp hs
  exact (hmethod m hm).2 s hs

/-- Slots are all that emission needs, and checking fills them all. A program can be emitted exactly
if all of its slots are filled, and else the fault is that of a node that was not checked. On any
checker, an accepted program is filled: checking comes to each expression once, in the order of the
text, and puts the type that it finds there into the slot. So an accepted program can be emitted. -/
theorem filled_is_all_java_needs :
    (∀ p : Program, ((∃ text, p.java = .ok text) ↔ p.Filled) ∧
      ∀ d, p.java = .error d → d.fault = .unanalyzedNode) ∧
    ∀ (c : Checker) (p : Program), (p.check c).2.verdict = .ok () →
      (p.check c).2.tree.Filled ∧ Fill (p.visits c) p.parts (p.check c).2.tree.parts ∧
        ∃ text, (p.check c).2.tree.java = .ok text := by
  have hexact : ∀ p : Program, ((∃ text, p.java = .ok text) ↔ p.Filled) ∧
      ∀ d, p.java = .error d → d.fault = .unanalyzedNode := by
    intro p
    have hneeds := p.java_needs
    rcases hp : p.java with d | text <;> rw [hp] at hneeds
    · exact ⟨⟨fun ⟨_, h⟩ => (nomatch h), fun h => absurd h hneeds.1⟩,
        fun _ h => Except.error.inj h ▸ hneeds.2⟩
    · exact ⟨⟨fun _ => hneeds, fun _ => ⟨text, rfl⟩⟩, nofun⟩
  refine ⟨hexact, fun c p h => ?_⟩
  obtain ⟨hfill, hfilled⟩ := fill_of_check h
  exact ⟨hfilled, hfill, (hexact _).1.mpr hfilled⟩

/-- A program that prints in a branch and in a loop, and declares a variable. -/
def reporting : Program where
  fields := [⟨"limit", "Integer", some (.literal (.integer 2) none default), none, default⟩]
  methods := [⟨entryName, [], some "Integer", [
    .declaration "sum" none (some (.group (.binary .plus (.name "limit" none default)
      (.literal (.integer 1) none default) none default) none default)) none default,
    .conditional
      (.binary .less (.name "limit" none default) (.name "sum" none default) none default)
      [.expression (.call "print" [.literal (.string "more") none default] none default) default]
      [] default,
    .returns (.name "sum" none default) default], none, default⟩]
  span := default

theorem reporting_filled :
    (∀ d, reporting.java = .error d → d.fault = .unanalyzedNode) ∧
    (reporting.check .initial).2.verdict = .ok () ∧ (reporting.check .initial).2.tree.Filled ∧
      (reporting.visits .initial).map Visit.subject = reporting.parts ∧
      ∃ text, (reporting.check .initial).2.tree.java = .ok text := by
  obtain ⟨hexact, hcheck⟩ := filled_is_all_java_needs
  have haccepted : (reporting.check .initial).2.verdict = .ok () := rfl
  obtain ⟨hfilled, hfill, hjava⟩ := hcheck _ _ haccepted
  exact ⟨(hexact reporting).2, haccepted, hfilled, hfill.subjects, hjava⟩

end Program

end TeachLang
