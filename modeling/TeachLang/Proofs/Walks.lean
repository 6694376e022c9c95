import TeachLang.Typing.Program
import TeachLang.Proofs.Ensures
import TeachLang.Proofs.Related

/-!
# One checker for a whole program

`Expr.check` and its like hand checkers down: whoever enters a scope goes on with the checker from
before, and what was defined inside is forgotten. A **walk** has only one checker, which goes from
hand to hand through a tree. It is changed by every definition, a scope that is entered is added to
its scopes, and on the way out, with success or with a fault, that scope is released and the one
around it is the innermost again.

Walking comes to the same as checking (`Expr.walk_eq`, `Stmt.walk_eq`, `Program.walk_eq`), because a
walk leaves no trace: `Checker.Grows` says what a stretch of a walk adds to the innermost scope, and
that all other scopes are as they were. What was added to a scope goes when the scope is released.
-/

namespace TeachLang

/-! ## Walks -/

/-- A look at a tree that takes the checker along. -/
def Walk (T R : Type) : Type := Checker → Checker × Checked T R

namespace Walk

variable {T U R S : Type}

/-- Looks at what is defined and changes nothing. -/
def look (checked : Checker → Checked T R) : Walk T R := fun c => (c, checked c)

/-- Goes on from the verdict on a part, or stops there and puts the part in its place. -/
def andThen (part : Walk T R) (stopped : T → U) (next : T → R → Walk U S) : Walk U S := fun c =>
  match (part c).2.verdict with
  | .ok found => next (part c).2.tree found (part c).1
  | .error d => ((part c).1, ⟨stopped (part c).2.tree, .error d⟩)

/-- Draws a conclusion from what was seen. -/
def conclude (conclusion : Checked T R → Checked U S) (walk : Walk T R) : Walk U S := fun c =>
  ((walk c).1, conclusion (walk c).2)

/-- Walks in a new scope, which is released in any case. -/
def inScope (inner : Walk T R) : Walk T R := fun c =>
  ({ (inner c.enter).1 with
      scopes := (inner c.enter).1.scopes.release c.scopes.fresh
      scope := c.scope },
    (inner c.enter).2)

/-- Adds a variable to the innermost scope. -/
def declare (tree : T) (v : Variable) (position : Position) : Walk T Unit := fun c =>
  match c.declare v position with
  | .ok next => (next, .pass tree ())
  | .error d => (c, ⟨tree, .error d⟩)

/-- Adds variables that all have the same place. -/
def declareAll (tree : T) (position : Position) : List Variable → Walk T Unit
  | [] => look fun _ => .pass tree ()
  | v :: vs => (declare tree v position).andThen id fun tree _ => declareAll tree position vs

/-- Walks through items in their order, up to the first that is faulty. -/
def each (walk : T → Walk T Unit) : List T → Walk (List T) Unit
  | [] => look fun _ => .pass [] ()
  | item :: items =>
    (walk item).andThen (· :: items) fun item _ =>
      (each walk items).conclude (·.within (item :: ·))

end Walk

open Walk (look)

namespace Expr

mutual

/-- Walks through an expression. -/
def walk : Expr → Walk Expr Ty
  | literal value ty span =>
    look fun _ => .fill (literal value · span) ty (value.check span.start)
  | group inner ty span =>
    if inner.isBinary then
      (walk inner).andThen (group · ty span) fun inner found =>
        look fun _ => .pass (group inner (some found) span) found
    else look fun _ => .fail (group inner ty span) .invalidGroup span.start
  | binary operator left right ty span =>
    (walk left).andThen (binary operator · right ty span) fun left a =>
    (walk right).andThen (binary operator left · ty span) fun right b =>
    look fun _ => .fill (binary operator left right · span) ty (operator.result a b span.start)
  | name n binding span =>
    look fun c =>
      (Checked.fill (name n · span) binding (c.lookupVariable n span.start)).map Variable.ty
  | member receiver n binding span =>
    (walk receiver).andThen (member · n binding span) fun receiver ty =>
    look fun _ =>
      (Checked.fill (member receiver n · span) binding (ty.field n span.start)).map Variable.ty
  | call n arguments callee span =>
    (walkArguments arguments).andThen (call n · callee span) fun arguments tys =>
    look fun c => (Checked.fill (call n arguments · span) callee
      (calleeFor (c.lookupFunction n tys.length span.start) tys)).map Signature.result
  | methodCall receiver n arguments callee span =>
    (walkArguments arguments).andThen (methodCall receiver n · callee span) fun arguments tys =>
    (walk receiver).andThen (methodCall · n arguments callee span) fun receiver ty =>
    look fun _ => (Checked.fill (methodCall receiver n arguments · span) callee
      (calleeFor (ty.method n tys.length span.start) tys)).map Signature.result

/-- Walks through arguments from left to right. -/
def walkArguments : List Expr → Walk (List Expr) (List (Position × Ty))
  | [] => look fun _ => .pass [] []
  | argument :: arguments =>
    (walk argument).andThen (· :: arguments) fun argument ty =>
    (walkArguments arguments).andThen (argument :: ·) fun arguments tys =>
    look fun _ => .pass (argument :: arguments) ((argument.span.start, ty) :: tys)

end

/-- Walks through an expression where a value of a type is required. -/
def walkAs (required : Ty) (e : Expr) : Walk Expr Ty :=
  e.walk.conclude (·.require fun ty => Ty.requireAssignable required ty e.span.start)

end Expr

/-- Walks through the value that a variable starts with, if it has one. -/
def Checker.walkValue : Option Expr → Walk (Option Expr) (Option (Position × Ty))
  | none => look fun _ => .pass none none
  | some e => e.walk.conclude fun checked =>
      (checked.map fun ty => some (e.span.start, ty)).within some

/-- Walks through the declaration of a variable, which is the last to change the checker. -/
def Checker.walkVariable {T : Type} (name : String) (typeName : Option String)
    (value : Option Expr) (binding : Option Variable) (position : Position)
    (node : Option Expr → Option Variable → T) : Walk T Unit :=
  (look fun c => ⟨value, typeName.mapM (c.resolveTy · position)⟩).andThen (node · binding)
    fun value declared => (Checker.walkValue value).andThen (node · binding) fun value found =>
    (look fun _ => ⟨value, Checker.variableTy name declared found position⟩).andThen
      (node · binding) fun value ty =>
    (Walk.declare value (.plain name ty) position).andThen (node · binding) fun value _ =>
    look fun _ => .pass (node value (some (.plain name ty))) ()

namespace Stmt

mutual

/-- Walks through a statement. -/
def walk : Stmt → Walk Stmt Unit
  | expression e span =>
    if e.isCall then
      e.walk.conclude fun checked => (checked.map fun _ => ()).within (expression · span)
    else look fun _ => .fail (expression e span) .invalidExpressionStatement span.start
  | declaration name typeName value binding span =>
    Checker.walkVariable name typeName value binding span.start (declaration name typeName · · span)
  | assignment target value span =>
    if target.isAccess then
      target.walk.andThen (assignment · value span) fun target ty =>
      (value.walkAs ty).conclude fun checked =>
        (checked.map fun _ => ()).within (assignment target · span)
    else look fun _ => .fail (assignment target value span) .unassignableReceiver target.span.start
  | conditional condition thenBody elseBody span =>
    (condition.walkAs .boolean).andThen (conditional · thenBody elseBody span) fun condition _ =>
      if thenBody.isEmpty then
        look fun _ =>
          .fail (conditional condition thenBody elseBody span) (.emptyBody "IF") span.start
      else
        (walkAll thenBody).inScope.andThen (conditional condition · elseBody span)
          fun thenBody _ =>
            (walkAll elseBody).inScope.conclude (·.within (conditional condition thenBody · span))
  | forEach name items body span =>
    (items.walkAs .integerIterable).andThen (forEach name · body span) fun items _ =>
      if body.isEmpty then
        look fun _ => .fail (forEach name items body span) (.emptyBody "FOR") span.start
      else
        ((Walk.declareAll body span.start [.plain name .integer]).andThen id
          fun _ _ => walkAll body).inScope.conclude (·.within (forEach name items · span))
  | whileLoop condition body span =>
    (condition.walkAs .boolean).andThen (whileLoop · body span) fun condition _ =>
      (walkAll body).inScope.conclude (·.within (whileLoop condition · span))
  | returns value span =>
    value.walk.conclude fun checked => (checked.map fun _ => ()).within (returns · span)

/-- Walks through statements in their order, up to the first that is faulty. -/
def walkAll : List Stmt → Walk (List Stmt) Unit
  | [] => look fun _ => .pass [] ()
  | stmt :: stmts =>
    (walk stmt).andThen (· :: stmts) fun stmt _ =>
      (walkAll stmts).conclude (·.within (stmt :: ·))

end

end Stmt

/-- Walks through a field. -/
def Field.walk (f : Field) : Walk Field Unit :=
  Checker.walkVariable f.name (some f.typeName) f.value f.binding f.span.start
    fun value binding => { f with value := value, binding := binding }

namespace Method

/-- Walks through the body of a method with the given signature, in a scope with its parameters. -/
def walkBody (m : Method) (f : Signature) : Walk Method Unit :=
  ((Walk.declareAll m.body m.span.start (m.parameterVariables f)).andThen id
    fun _ _ => Stmt.walkAll m.body).inScope.conclude (·.within ({ m with body := · }))

/-- Walks through a method. -/
def walk (m : Method) : Walk Method Unit := fun c =>
  match c.signature m with
  | .error d => (c, ⟨m, .error d⟩)
  | .ok f =>
    match c.declareFunction f m.span.start with
    | .error d => (c, ⟨m, .error d⟩)
    | .ok next => walkBody { m with callee := some f } f next

end Method

/-- Walks through a program. -/
def Program.walk (p : Program) : Walk Program Unit :=
  (Walk.each Field.walk p.fields).andThen ({ p with fields := · }) fun fields _ =>
  (Walk.each Method.walk p.methods).andThen ({ p with fields := fields, methods := · })
    fun methods _ =>
      look fun c => ⟨{ p with fields := fields, methods := methods }, p.checkEntry c⟩

/-! ## Expressions -/

namespace Walk

variable {T U R S : Type}

/-- To look and then look again is one look. -/
theorem look_andThen (checked : Checker → Checked T R) (stopped : T → U)
    (next : T → R → Checker → Checked U S) :
    ((look checked).andThen stopped fun tree found => look (next tree found)) =
      look fun c => (checked c).andThen stopped fun tree found => next tree found c := by
  funext c
  simp only [andThen, look, Checked.andThen]
  cases (checked c).verdict <;> rfl

end Walk

namespace Expr

mutual

/-- **Expressions change nothing**. The checker goes through an expression and comes out as it
went in. -/
theorem walk_eq : ∀ e : Expr, e.walk = look (check · e)
  | literal .. => rfl
  | group inner ty span => by
    funext c
    rw [walk, look, check]
    split
    · rw [walk_eq inner, Walk.look_andThen]
      rfl
    · rfl
  | binary operator left right ty span => by
    simp only [walk, walk_eq left, walk_eq right, Walk.look_andThen, check]
  | name .. => rfl
  | member receiver n binding span => by
    simp only [walk, walk_eq receiver, Walk.look_andThen, check]
  | call n arguments callee span => by
    simp only [walk, walkArguments_eq arguments, Walk.look_andThen, check]
  | methodCall receiver n arguments callee span => by
    simp only [walk, walkArguments_eq arguments, walk_eq receiver, Walk.look_andThen, check]

theorem walkArguments_eq : ∀ es : List Expr, walkArguments es = look (checkArguments · es)
  | [] => rfl
  | argument :: arguments => by
    simp only [walkArguments, walk_eq argument, walkArguments_eq arguments, Walk.look_andThen,
      checkArguments]

end

theorem walkAs_eq (required : Ty) (e : Expr) : e.walkAs required = look (e.checkAs · required) := by
  rw [walkAs, walk_eq]
  rfl

end Expr

theorem Checker.walkValue_eq (value : Option Expr) :
    Checker.walkValue value = look (Checker.checkValue · value) := by
  cases value with
  | none => rfl
  | some e =>
    rw [walkValue, Expr.walk_eq]
    rfl

/-! ## What a walk adds -/

namespace Checker

/-- What became of a checker: the innermost scope has some more variables and functions behind those
that it had, and all else is as it was. -/
structure Grows (c last : Checker) (vs : List Variable) (fs : List Signature) : Prop where
  /-- the same types can be named -/
  registry : last.registry = c.registry
  /-- the innermost scope is the same -/
  scope : last.scope = c.scope
  /-- there are as many scopes -/
  depth : last.depth = c.depth
  /-- the other scopes are as they were -/
  elsewhere : ∀ id, id ≠ c.scope → last.scopes.get? id = c.scopes.get? id
  /-- what is in the innermost scope now -/
  here : ∃ scope, c.scopes.get? c.scope = some scope ∧
    last.scopes.get? c.scope = some (.ofLists scope.parent
      (scope.bindings ++ vs.map fun v => (v.name, v))
      (scope.functions ++ fs.map fun f => ((f.name, f.arity), f)))

/-- The innermost scope is one of the live ones. -/
structure Live (c : Checker) : Prop where
  /-- its place is among the places -/
  lt : c.scope < c.depth

variable {c mid last : Checker} {vs vs' : List Variable} {fs fs' : List Signature}

theorem Grows.live (h : c.Grows last vs fs) (hc : c.Live) : last.Live :=
  ⟨by rw [h.scope, h.depth]; exact hc.lt⟩

/-- What is added later stands behind what was added before. -/
theorem Grows.trans (h : c.Grows mid vs fs) (h' : mid.Grows last vs' fs') :
    c.Grows last (vs ++ vs') (fs ++ fs') := by
  refine ⟨h'.registry.trans h.registry, h'.scope.trans h.scope, h'.depth.trans h.depth,
    fun id hid => ?_, ?_⟩
  · rw [h'.elsewhere id (h.scope ▸ hid), h.elsewhere id hid]
  · obtain ⟨scope, hscope, hmid⟩ := h.here
    obtain ⟨between, hbetween, hlast⟩ := h'.here
    rw [h.scope] at hbetween hlast
    obtain rfl := Option.some.inj (hmid.symm.trans hbetween)
    refine ⟨scope, hscope, ?_⟩
    rw [hlast, Scope.bindings_ofLists, Scope.functions_ofLists, List.append_assoc,
      List.append_assoc, ← List.map_append, ← List.map_append]
    rfl

/-- With the release of a scope all goes that was added to it. -/
theorem Grows.release (h : c.enter.Grows last vs fs) (hc : c.Live) :
    { last with scopes := last.scopes.release c.scopes.fresh, scope := c.scope } = c := by
  have hpos : 0 < c.scopes.depth := Nat.lt_of_le_of_lt (Nat.zero_le _) hc.lt
  have hscopes : last.scopes.release c.scopes.fresh = c.scopes := by
    apply Scopes.ext_get?
    intro id
    rw [Scopes.fresh_eq, Scopes.get?_release hpos]
    -- the scope that is released lies behind all others
    split
    · next hid =>
      rw [h.elsewhere id (Nat.ne_of_lt hid)]
      exact (Scopes.get?_child ..).trans (if_neg (Nat.ne_of_lt hid))
    · next hid => exact (Array.getElem?_eq_none (Nat.le_of_not_lt hid)).symm
  rw [hscopes, h.registry]
  rfl

theorem live_enter (c : Checker) : c.enter.Live :=
  ⟨Nat.lt_of_lt_of_eq (Nat.lt_succ_self c.scopes.depth) (Scopes.depth_child ..).symm⟩

namespace Live

/-- A change of the innermost scope that puts definitions behind those that it has. -/
theorem grows_modify (hc : c.Live) {change : Scope Variable Signature → Scope Variable Signature}
    (h : ∀ scope, change scope = .ofLists scope.parent
      (scope.bindings ++ vs.map fun v => (v.name, v))
      (scope.functions ++ fs.map fun f => ((f.name, f.arity), f))) :
    c.Grows { c with scopes := ⟨c.scopes.scopes.modify c.scope change⟩ } vs fs := by
  obtain ⟨scope, hscope⟩ := Scopes.get?_eq_some_of_lt hc.lt
  refine ⟨rfl, rfl, Scopes.depth_modify .., fun id hid => ?_, scope, hscope, ?_⟩
  · exact (Scopes.get?_modify ..).trans (if_neg (Ne.symm hid))
  · rw [Scopes.get?_modify, if_pos rfl, hscope, ← h]
    rfl

theorem grows_self (hc : c.Live) : c.Grows c [] [] := by
  obtain ⟨scope, hscope⟩ := Scopes.get?_eq_some_of_lt hc.lt
  refine ⟨rfl, rfl, rfl, fun _ _ => rfl, scope, hscope, ?_⟩
  rw [hscope]
  exact congrArg some (Scope.ext_lists rfl (List.append_nil _).symm (List.append_nil _).symm)

/-- A variable that is declared is added, and nothing else. -/
theorem grows_of_declare (hc : c.Live) {v : Variable} {position : Position}
    (h : c.declare v position = .ok last) : c.Grows last [v] [] := by
  obtain ⟨scopes, hscopes, hlast⟩ := ok_of_bind h
  obtain rfl := Except.ok.inj hlast
  obtain ⟨-, rfl⟩ := Scopes.eq_extend_of_defineVariable hscopes
  exact hc.grows_modify fun scope =>
    Scope.ext_lists rfl (Scope.bindings_extend ..) (List.append_nil _).symm

/-- A function that is declared is added, and nothing else. -/
theorem grows_of_declareFunction (hc : c.Live) {f : Signature} {position : Position}
    (h : c.declareFunction f position = .ok last) : c.Grows last [] [f] := by
  obtain ⟨scopes, hscopes, hlast⟩ := ok_of_bind h
  obtain rfl := Except.ok.inj hlast
  rw [Scopes.defineFunction] at hscopes
  split at hscopes
  · cases hscopes
  · obtain rfl := Except.ok.inj hscopes
    exact hc.grows_modify fun scope =>
      Scope.ext_lists rfl (List.append_nil _).symm (Scope.functions_addFunction ..)

end Live

end Checker

/-! ## Statements -/

theorem Checker.declareAll_singleton (c : Checker) (position : Position) (v : Variable) :
    c.declareAll position [v] = c.declare v position := by
  rw [declareAll]
  cases c.declare v position <;> rfl

namespace Walk

variable {T U R S : Type} {c : Checker}

/-- What changes nothing can be followed by more that changes nothing. -/
theorem andThen_eq {part : Walk T R} {checked : Checked T R} (hpart : part c = (c, checked))
    {stopped : T → U} {next : T → R → Walk U S} {following : T → R → Checked U S}
    (hnext : ∀ tree found, next tree found c = (c, following tree found)) :
    part.andThen stopped next c = (c, checked.andThen stopped following) := by
  simp only [andThen, hpart, Checked.andThen]
  cases checked.verdict with
  | ok found => exact hnext _ _
  | error d => rfl

theorem conclude_eq {walk : Walk T R} {last : Checker} {checked : Checked T R}
    (h : walk c = (last, checked)) (conclusion : Checked T R → Checked U S) :
    walk.conclude conclusion c = (last, conclusion checked) := by
  rw [conclude, h]

/-- Nothing is left of a scope. -/
theorem inScope_eq {walk : Walk T R} {last : Checker} {checked : Checked T R}
    {vs : List Variable} {fs : List Signature} (h : walk c.enter = (last, checked))
    (hgrows : c.enter.Grows last vs fs) (hc : c.Live) : walk.inScope c = (c, checked) := by
  rw [inScope, h, hgrows.release hc]

/-- Variables are declared one after the other, up to the first that is refused. -/
theorem declareAll_cases (tree : T) (position : Position) (vs : List Variable) :
    ∀ {c : Checker}, c.Live →
      (∃ last, c.declareAll position vs = .ok last ∧
        declareAll tree position vs c = (last, .pass tree ()) ∧ c.Grows last vs []) ∨
      ∃ last d declared, c.declareAll position vs = .error d ∧
        declareAll tree position vs c = (last, ⟨tree, .error d⟩) ∧ c.Grows last declared [] := by
  induction vs with
  | nil => exact fun hc => .inl ⟨_, rfl, rfl, hc.grows_self⟩
  | cons v vs ih =>
    intro c hc
    rcases hdeclare : c.declare v position with d | next
    · refine .inr ⟨c, d, [], ?_, ?_, hc.grows_self⟩
      · rw [Checker.declareAll, hdeclare]
        rfl
      · simp only [declareAll, andThen, declare, hdeclare, id]
    · have hfirst := hc.grows_of_declare hdeclare
      have hall : c.declareAll position (v :: vs) = next.declareAll position vs := by
        rw [Checker.declareAll, hdeclare]
        rfl
      have hwalk : declareAll tree position (v :: vs) c = declareAll tree position vs next := by
        simp only [declareAll, andThen, declare, hdeclare, Checked.pass]
      rw [hall, hwalk]
      obtain ⟨last, hlast, heq, hgrows⟩ | ⟨last, d, declared, hlast, heq, hgrows⟩ :=
        ih (hfirst.live hc)
      · exact .inl ⟨last, hlast, heq, hfirst.trans hgrows⟩
      · exact .inr ⟨last, d, v :: declared, hlast, heq, hfirst.trans hgrows⟩

/-- The declaration of a variable comes to the same, walking or checking. -/
theorem walkVariable_eq (name : String) (typeName : Option String) (value : Option Expr)
    (binding : Option Variable) (position : Position) (node : Option Expr → Option Variable → T) :
    Checker.walkVariable name typeName value binding position node c =
      c.checkVariable name typeName value binding position node := by
  simp only [Checker.walkVariable, Checker.walkValue_eq, andThen, look, declare,
    Checker.checkVariable]
  rcases typeName.mapM (c.resolveTy · position) with d | declared
  · rfl
  rcases (c.checkValue value).verdict with d | found
  · rfl
  rcases hty : Checker.variableTy name declared found position with d | ty
  · simp only [hty]
  rcases hnext : c.declare (.plain name ty) position with d | next
  · simp only [hty, hnext]
  · simp only [hty, hnext, Checked.pass]

end Walk

/-- What a declaration leaves: if it is accepted, the variable in its slot, otherwise nothing. -/
theorem Checker.Live.checkVariable_cases {T : Type} {c : Checker} (hc : c.Live) (name : String)
    (typeName : Option String) (value : Option Expr) (held : Option Variable) (position : Position)
    (node : Option Expr → Option Variable → T) :
    (∃ first v last, v.name = name ∧ c.Grows last [v] [] ∧
      c.checkVariable name typeName value held position node =
        (last, .pass (node first (some v)) ())) ∨
    ∃ tree d, c.checkVariable name typeName value held position node = (c, ⟨tree, .error d⟩) := by
  rw [checkVariable]
  rcases typeName.mapM (c.resolveTy · position) with d | declared
  · exact .inr ⟨_, _, rfl⟩
  simp only
  rcases (c.checkValue value).verdict with d | found
  · exact .inr ⟨_, _, rfl⟩
  simp only
  rcases variableTy name declared found position with d | ty
  · exact .inr ⟨_, _, rfl⟩
  simp only
  rcases hnext : c.declare (.plain name ty) position with d | next
  · exact .inr ⟨_, _, rfl⟩
  · exact .inl ⟨_, _, next, rfl, hc.grows_of_declare hnext, rfl⟩

namespace Stmt

/-- What is left in a checker by a statement: by a declaration that is accepted the variable in its
slot, and nothing by all others. -/
inductive Leaves (c : Checker) : Stmt → Checker × Checked Stmt Unit → Prop where
  /-- a declaration that is accepted -/
  | declared {name : String} {typeName : Option String} {value first : Option Expr}
    {held : Option Variable} {v : Variable} {span : Span} {last : Checker} :
    v.name = name → c.Grows last [v] [] →
    Leaves c (declaration name typeName value held span)
      (last, .pass (declaration name typeName first (some v) span) ())
  /-- a declaration that is refused -/
  | refused {name : String} {typeName : Option String} {value : Option Expr}
    {held : Option Variable} {span : Span} {tree : Stmt} {d : Diagnostic} :
    Leaves c (declaration name typeName value held span) (c, ⟨tree, .error d⟩)
  /-- a statement of another kind, accepted or not -/
  | other {stmt : Stmt} {checked : Checked Stmt Unit} :
    (∀ name typeName value held span, stmt ≠ declaration name typeName value held span) →
    Leaves c stmt (c, checked)

variable {c : Checker}

theorem leaves_check (hc : c.Live) (stmt : Stmt) : stmt.Leaves c (stmt.check c) := by
  cases stmt with
  | declaration name typeName value held span =>
    rw [check]
    obtain ⟨first, v, last, hname, hgrows, hchecked⟩ | ⟨tree, d, hchecked⟩ :=
      hc.checkVariable_cases name typeName value held span.start
        (declaration name typeName · · span)
    · rw [hchecked]
      exact .declared hname hgrows
    · rw [hchecked]
      exact .refused
  | expression | assignment =>
    rw [check]
    split <;> exact .other (by rintro _ _ _ _ _ ⟨⟩)
  | conditional | forEach | whileLoop | returns =>
    rw [check]
    exact .other (by rintro _ _ _ _ _ ⟨⟩)

/-- What is left of a statement is at most one variable. -/
theorem Leaves.grows {stmt : Stmt} {result : Checker × Checked Stmt Unit}
    (h : stmt.Leaves c result) (hc : c.Live) : ∃ vs, c.Grows result.1 vs [] := by
  cases h with
  | declared _ hgrows => exact ⟨_, hgrows⟩
  | refused | other => exact ⟨[], hc.grows_self⟩

theorem grows_of_checkAll (stmts : List Stmt) :
    ∀ {c : Checker}, c.Live → ∃ vs, c.Grows (checkAll c stmts).1 vs [] := by
  induction stmts with
  | nil => exact fun hc => ⟨[], hc.grows_self⟩
  | cons stmt stmts ih =>
    intro c hc
    obtain ⟨vs, hfirst⟩ := (leaves_check hc stmt).grows hc
    rw [checkAll]
    simp only
    rcases (stmt.check c).2.verdict with d | u
    · exact ⟨vs, hfirst⟩
    · obtain ⟨vs', hothers⟩ := ih (hfirst.live hc)
      exact ⟨vs ++ vs', hfirst.trans hothers⟩

/-- Statements in a scope of their own leave nothing. -/
theorem walkAll_inScope {stmts : List Stmt}
    (h : walkAll stmts c.enter = checkAll c.enter stmts) (hc : c.Live) :
    (walkAll stmts).inScope c = (c, (checkAll c.enter stmts).2) := by
  obtain ⟨vs, hgrows⟩ := grows_of_checkAll stmts c.live_enter
  exact Walk.inScope_eq h hgrows hc

/-- Statements in a scope with some variables leave nothing, and neither do the variables. -/
theorem walkAll_inScope_of_declareAll {stmts : List Stmt}
    (h : ∀ {inner : Checker}, inner.Live → walkAll stmts inner = checkAll inner stmts)
    (hc : c.Live) (position : Position) (vs : List Variable) :
    ((Walk.declareAll stmts position vs).andThen id fun _ _ => walkAll stmts).inScope c =
      (c, match c.enter.declareAll position vs with
        | .error d => ⟨stmts, .error d⟩
        | .ok inner => (checkAll inner stmts).2) := by
  obtain ⟨inner, hinner, hwalk, hgrows⟩ | ⟨inner, d, declared, hinner, hwalk, hgrows⟩ :=
    Walk.declareAll_cases stmts position vs c.live_enter
  · have hlive := hgrows.live c.live_enter
    obtain ⟨vs', hbody⟩ := grows_of_checkAll stmts hlive
    rw [hinner]
    exact Walk.inScope_eq (by simp only [Walk.andThen, hwalk, Checked.pass, h hlive])
      (hgrows.trans hbody) hc
  · rw [hinner]
    exact Walk.inScope_eq (by simp only [Walk.andThen, hwalk, id]) hgrows hc

mutual

/-- Walking through a statement comes to the same as checking it. -/
theorem walk_eq : ∀ (stmt : Stmt) {c : Checker}, c.Live → stmt.walk c = stmt.check c
  | expression e span, c, _ => by
    rw [walk, Expr.walk_eq, check]
    split <;> rfl
  | declaration name typeName value held span, c, _ => by
    rw [walk, check]
    exact Walk.walkVariable_eq ..
  | assignment target value span, c, _ => by
    rw [walk, Expr.walk_eq, check]
    split
    · refine Walk.andThen_eq rfl fun tree ty => ?_
      rw [Expr.walkAs_eq]
      rfl
    · rfl
  | conditional condition thenBody elseBody span, c, hc => by
    rw [walk, Expr.walkAs_eq, check]
    refine Walk.andThen_eq rfl fun condition _ => ?_
    split
    · rfl
    · refine Walk.andThen_eq (walkAll_inScope (walkAll_eq thenBody c.live_enter) hc)
        fun thenBody _ => ?_
      exact Walk.conclude_eq (walkAll_inScope (walkAll_eq elseBody c.live_enter) hc) _
  | forEach name items body span, c, hc => by
    rw [walk, Expr.walkAs_eq, check]
    refine Walk.andThen_eq rfl fun items _ => ?_
    split
    · rfl
    · have hbody := walkAll_inScope_of_declareAll (fun hinner => walkAll_eq body hinner) hc
        span.start [.plain name .integer]
      rw [Checker.declareAll_singleton] at hbody
      refine (Walk.conclude_eq hbody _).trans ?_
      cases c.enter.declare (.plain name .integer) span.start <;> rfl
  | whileLoop condition body span, c, hc => by
    rw [walk, Expr.walkAs_eq, check]
    refine Walk.andThen_eq rfl fun condition _ => ?_
    exact Walk.conclude_eq (walkAll_inScope (walkAll_eq body c.live_enter) hc) _
  | returns value span, c, _ => by
    rw [walk, Expr.walk_eq, check]
    rfl

theorem walkAll_eq : ∀ (stmts : List Stmt) {c : Checker}, c.Live →
    walkAll stmts c = checkAll c stmts
  | [], _, _ => rfl
  | stmt :: stmts, c, hc => by
    obtain ⟨vs, hfirst⟩ := (leaves_check hc stmt).grows hc
    have hothers := walkAll_eq stmts (hfirst.live hc)
    simp only [walkAll, checkAll, Walk.andThen, walk_eq stmt hc, Walk.conclude, hothers]
    rcases (stmt.check c).2.verdict with d | u <;> rfl

end

end Stmt

/-! ## Programs -/

variable {c : Checker}

namespace Walk

/-- A faulty item is the last that is walked through. -/
theorem each_of_error {T : Type} {walk : T → Walk T Unit} {item : T} {d : Diagnostic}
    (h : (walk item c).2.verdict = .error d) (items : List T) :
    each walk (item :: items) c =
      ((walk item c).1, ⟨(walk item c).2.tree :: items, .error d⟩) := by
  simp only [each, andThen, h]

/-- Behind an item that is accepted come the others. -/
theorem each_of_ok {T : Type} {walk : T → Walk T Unit} {item : T}
    (h : (walk item c).2.verdict = .ok ()) (items : List T) :
    each walk (item :: items) c =
      ((each walk items (walk item c).1).1,
        (each walk items (walk item c).1).2.within ((walk item c).2.tree :: ·)) := by
  simp only [each, andThen, h, conclude]

/-- Walks through items that come to the same as checking them do so together. -/
theorem each_eq {T : Type} {walk : T → Walk T Unit} {check : Checker → T → Checker × Checked T Unit}
    (h : ∀ (item : T) {c : Checker}, c.Live →
      walk item c = check c item ∧ ∃ vs fs, c.Grows (check c item).1 vs fs) (items : List T) :
    ∀ {c : Checker}, c.Live → each walk items c = Program.checkEach check c items ∧
      ∃ vs fs, c.Grows (Program.checkEach check c items).1 vs fs := by
  induction items with
  | nil => exact fun hc => ⟨rfl, [], [], hc.grows_self⟩
  | cons item items ih =>
    intro c hc
    obtain ⟨hfirst, vs, fs, hgrows⟩ := h item hc
    obtain ⟨hothers, vs', fs', hgrows'⟩ := ih (hgrows.live hc)
    simp only [each, Program.checkEach, andThen, hfirst, conclude, hothers]
    rcases (check c item).2.verdict with d | u
    · exact ⟨rfl, vs, fs, hgrows⟩
    · exact ⟨rfl, _, _, hgrows.trans hgrows'⟩

end Walk

theorem Field.walk_eq (f : Field) : f.walk c = f.check c := Walk.walkVariable_eq ..

theorem Field.walk_each (f : Field) {c : Checker} (hc : c.Live) :
    f.walk c = f.check c ∧ ∃ vs fs, c.Grows (f.check c).1 vs fs := by
  refine ⟨f.walk_eq, ?_⟩
  obtain ⟨first, v, last, -, hgrows, hcheck⟩ | ⟨tree, d, hcheck⟩ :=
    hc.checkVariable_cases f.name (some f.typeName) f.value f.binding f.span.start
      fun value binding => { f with value := value, binding := binding }
  · rw [Field.check, hcheck]
    exact ⟨_, _, hgrows⟩
  · rw [Field.check, hcheck]
    exact ⟨_, _, hc.grows_self⟩

namespace Method

/-- The signature of a method can be declared. -/
def Registered (c : Checker) (m : Method) (f : Signature) : Prop :=
  c.signature m = .ok f ∧ ∃ next, c.declareFunction f m.span.start = .ok next

theorem walkBody_eq (hc : c.Live) (m : Method) (f : Signature) :
    m.walkBody f c = (c, checkBody c m f) := by
  have hbody := Stmt.walkAll_inScope_of_declareAll (Stmt.walkAll_eq m.body) hc m.span.start
    (m.parameterVariables f)
  refine (Walk.conclude_eq hbody _).trans ?_
  rw [checkBody]
  cases c.enter.declareAll m.span.start (m.parameterVariables f) <;> rfl

/-- Walking through a method comes to the same as checking it, and leaves its signature if that can
be declared, whatever becomes of the body. -/
theorem walk_eq (m : Method) (hc : c.Live) : m.walk c = m.check c ∧
    ((∃ f, m.Registered c f ∧ c.Grows (m.check c).1 [] [f]) ∨
      (∀ f, ¬ m.Registered c f) ∧ ∃ d, m.check c = (c, ⟨m, .error d⟩)) := by
  rw [walk, check]
  rcases hsignature : c.signature m with d | f
  · refine ⟨rfl, .inr ⟨fun f hf => ?_, d, rfl⟩⟩
    rw [Registered, hsignature] at hf
    cases hf.1
  simp only
  rcases hdeclare : c.declareFunction f m.span.start with d | next
  · refine ⟨rfl, .inr ⟨fun g hg => ?_, d, rfl⟩⟩
    obtain ⟨hg, next, hnext⟩ := hg
    obtain rfl := Except.ok.inj (hsignature.symm.trans hg)
    rw [hdeclare] at hnext
    cases hnext
  · have hgrows := hc.grows_of_declareFunction hdeclare
    exact ⟨walkBody_eq (hgrows.live hc) _ f, .inl ⟨f, ⟨hsignature, next, hdeclare⟩, hgrows⟩⟩

theorem walk_each (m : Method) {c : Checker} (hc : c.Live) :
    m.walk c = m.check c ∧ ∃ vs fs, c.Grows (m.check c).1 vs fs := by
  obtain ⟨heq, ⟨f, -, hgrows⟩ | ⟨-, d, hcheck⟩⟩ := m.walk_eq hc
  · exact ⟨heq, _, _, hgrows⟩
  · refine ⟨heq, [], [], ?_⟩
    rw [hcheck]
    exact hc.grows_self

end Method

/-- Walking through a program comes to the same as checking it. -/
theorem Program.walk_eq (hc : c.Live) (p : Program) : p.walk c = p.check c := by
  obtain ⟨hfields, vs, fs, hgrows⟩ := Walk.each_eq Field.walk_each p.fields hc
  obtain ⟨hmethods, -⟩ := Walk.each_eq Method.walk_each p.methods (hgrows.live hc)
  simp only [walk, check, Walk.andThen, hfields, look]
  rcases (checkEach Field.check c p.fields).2.verdict with d | u
  · rfl
  simp only [hmethods]
  rcases (checkEach Method.check _ p.methods).2.verdict with d | u <;> rfl

end TeachLang
