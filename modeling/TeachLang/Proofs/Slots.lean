import TeachLang.Proofs.Grammar
import TeachLang.Typing.Program

/-!
# Checking fills slots

A tree is **cleared** by emptying its slots, so two trees are the same up to their slots if they are
the same when they are cleared. Whatever checking comes to, the tree that it gives back is the one
that it was given up to slots.
-/

namespace TeachLang

variable {T U V R S : Type}

/-! ## Cleared trees -/

namespace Expr

mutual

/-- An expression with empty slots. -/
def cleared : Expr → Expr
  | literal value _ span => literal value none span
  | group inner _ span => group inner.cleared none span
  | binary operator left right _ span => binary operator left.cleared right.cleared none span
  | name n _ span => name n none span
  | member receiver n _ span => member receiver.cleared n none span
  | call n arguments _ span => call n (allCleared arguments) none span
  | methodCall receiver n arguments _ span =>
    methodCall receiver.cleared n (allCleared arguments) none span

/-- Expressions with empty slots. -/
def allCleared : List Expr → List Expr
  | [] => []
  | first :: others => first.cleared :: allCleared others

end

mutual

/-- What is written of an expression has no slots. -/
theorem bare_cleared : ∀ e : Expr, e.cleared.bare = e.bare
  | literal .. | name .. => rfl
  | group inner .. => congrArg (group · none default) (bare_cleared inner)
  | binary _ left right .. => by simp only [cleared, bare, bare_cleared left, bare_cleared right]
  | member receiver .. => by simp only [cleared, bare, bare_cleared receiver]
  | call _ arguments .. => by simp only [cleared, bare, allBare_allCleared arguments]
  | methodCall receiver _ arguments .. => by
    simp only [cleared, bare, bare_cleared receiver, allBare_allCleared arguments]

theorem allBare_allCleared : ∀ es : List Expr, allBare (allCleared es) = allBare es
  | [] => rfl
  | e :: es => by simp only [allCleared, allBare, bare_cleared e, allBare_allCleared es]

end

@[simp] theorem span_cleared (e : Expr) : e.cleared.span = e.span := by
  cases e <;> rfl

@[simp] theorem isBinary_cleared (e : Expr) : e.cleared.isBinary = e.isBinary := by
  cases e <;> rfl

@[simp] theorem isCall_cleared (e : Expr) : e.cleared.isCall = e.isCall := by
  cases e <;> rfl

@[simp] theorem isAccess_cleared (e : Expr) : e.cleared.isAccess = e.isAccess := by
  cases e <;> rfl

end Expr

namespace Stmt

mutual

/-- A statement with empty slots. -/
def cleared : Stmt → Stmt
  | expression e span => expression e.cleared span
  | declaration n typeName value _ span =>
    declaration n typeName (value.map Expr.cleared) none span
  | assignment target value span => assignment target.cleared value.cleared span
  | conditional condition thenBody elseBody span =>
    conditional condition.cleared (allCleared thenBody) (allCleared elseBody) span
  | forEach n items body span => forEach n items.cleared (allCleared body) span
  | whileLoop condition body span => whileLoop condition.cleared (allCleared body) span
  | returns value span => returns value.cleared span

/-- Statements with empty slots. -/
def allCleared : List Stmt → List Stmt
  | [] => []
  | first :: others => first.cleared :: allCleared others

end

mutual

/-- What is written of a statement has no slots. -/
theorem bare_cleared : ∀ stmt : Stmt, stmt.cleared.bare = stmt.bare
  | expression e _ | returns e _ => by simp only [cleared, bare, e.bare_cleared]
  | declaration _ _ value _ _ => by
    cases value with
    | none => rfl
    | some e => simp only [cleared, bare, Option.map_some, e.bare_cleared]
  | assignment target value _ => by
    simp only [cleared, bare, target.bare_cleared, value.bare_cleared]
  | conditional condition thenBody elseBody _ => by
    simp only [cleared, bare, condition.bare_cleared, allBare_allCleared thenBody,
      allBare_allCleared elseBody]
  | forEach _ items body _ => by
    simp only [cleared, bare, items.bare_cleared, allBare_allCleared body]
  | whileLoop condition body _ => by
    simp only [cleared, bare, condition.bare_cleared, allBare_allCleared body]

theorem allBare_allCleared : ∀ stmts : List Stmt, allBare (allCleared stmts) = allBare stmts
  | [] => rfl
  | stmt :: stmts => by
    simp only [allCleared, allBare, bare_cleared stmt, allBare_allCleared stmts]

end

@[simp] theorem isEmpty_allCleared (stmts : List Stmt) :
    (allCleared stmts).isEmpty = stmts.isEmpty := by
  cases stmts <;> rfl

end Stmt

/-- A field with empty slots. -/
def Field.cleared (f : Field) : Field :=
  { f with value := f.value.map Expr.cleared, binding := none }

/-- A method with empty slots. -/
def Method.cleared (m : Method) : Method :=
  { m with body := Stmt.allCleared m.body, callee := none }

/-- A program with empty slots. -/
def Program.cleared (p : Program) : Program :=
  ⟨p.fields.map Field.cleared, p.methods.map Method.cleared, p.span⟩

/-- Programs that are the same up to their slots are written alike. -/
theorem Program.bare_cleared (p : Program) : p.cleared.bare = p.bare := by
  have hfield : ∀ f : Field, f.cleared.bare = f.bare := fun f => by
    simp only [Field.cleared, Field.bare, Option.map_map, Function.comp_def, Expr.bare_cleared]
  have hmethod : ∀ m : Method, m.cleared.bare = m.bare := fun m => by
    simp only [Method.cleared, Method.bare, Stmt.allBare_allCleared]
  simp only [cleared, bare, List.map_map, Function.comp_def, hfield, hmethod]

/-! ## Trees of results -/

namespace Checked

variable {seen : V}

/-- A function that does not see the slots sees the same tree, whether the second part is looked at
or not. -/
theorem tree_andThen (look : U → V) {part : Checked T R} {stopped : T → U}
    {next : T → R → Checked U S} (hstopped : look (stopped part.tree) = seen)
    (hnext : ∀ found, look (next part.tree found).tree = seen) :
    look (part.andThen stopped next).tree = seen := by
  rw [andThen]
  split
  · exact hnext _
  · exact hstopped

/-- A function that does not see a slot does not see how it is filled. -/
theorem tree_fill (look : U → V) {node : Option S → U} {held : Option S}
    {result : Except Diagnostic S} (h : ∀ slot, look (node slot) = seen) :
    look (fill node held result).tree = seen := by
  cases result <;> exact h _

theorem tree_fill_map (look : U → V) {node : Option S → U} {held : Option S}
    {result : Except Diagnostic S} {f : S → R} (h : ∀ slot, look (node slot) = seen) :
    look ((fill node held result).map f).tree = seen := tree_fill look h

end Checked

/-! ## Expressions -/

namespace Expr

mutual

/-- Checking an expression fills its slots, whether it is accepted or not: there is a case for each
constructor. -/
theorem cleared_check (c : Checker) : ∀ e : Expr, (e.check c).tree.cleared = e.cleared
  | literal value held span => by
    rw [check]
    exact Checked.tree_fill cleared fun slot => rfl
  | group inner held span => by
    rw [check]
    split
    · refine Checked.tree_andThen cleared ?_ fun found => ?_ <;>
        exact congrArg (group · none span) (cleared_check c inner)
    · rfl
  | binary operator left right held span => by
    have hleft := cleared_check c left
    have hright := cleared_check c right
    rw [check]
    refine Checked.tree_andThen cleared ?_ fun a =>
      Checked.tree_andThen cleared ?_ fun b =>
        Checked.tree_fill cleared fun slot => ?_ <;>
      simp only [cleared, hleft, hright]
  | name n held span => by
    rw [check]
    exact Checked.tree_fill_map cleared fun slot => rfl
  | member receiver n held span => by
    have hreceiver := cleared_check c receiver
    rw [check]
    refine Checked.tree_andThen cleared ?_ fun ty =>
      Checked.tree_fill_map cleared fun slot => ?_ <;>
      simp only [cleared, hreceiver]
  | call n arguments held span => by
    have harguments := allCleared_check c arguments
    rw [check]
    refine Checked.tree_andThen cleared ?_ fun tys =>
      Checked.tree_fill_map cleared fun slot => ?_ <;>
      simp only [cleared, harguments]
  | methodCall receiver n arguments held span => by
    have hreceiver := cleared_check c receiver
    have harguments := allCleared_check c arguments
    rw [check]
    refine Checked.tree_andThen cleared ?_ fun tys =>
      Checked.tree_andThen cleared ?_ fun ty =>
        Checked.tree_fill_map cleared fun slot => ?_ <;>
      simp only [cleared, hreceiver, harguments]

theorem allCleared_check (c : Checker) : ∀ es : List Expr,
    allCleared (checkArguments c es).tree = allCleared es
  | [] => rfl
  | e :: es => by
    have hfirst := cleared_check c e
    have hothers := allCleared_check c es
    rw [checkArguments]
    refine Checked.tree_andThen allCleared ?_ fun ty =>
      Checked.tree_andThen allCleared ?_ fun tys => ?_ <;>
      simp only [Checked.pass, allCleared, hfirst, hothers]

end

/-- So it leaves what is written as it is. -/
theorem bare_check (c : Checker) (e : Expr) : (e.check c).tree.bare = e.bare := by
  rw [← bare_cleared, cleared_check, bare_cleared]

/-- A type that is asked for makes no difference to the tree. -/
theorem cleared_checkAs (c : Checker) (required : Ty) (e : Expr) :
    (e.checkAs c required).tree.cleared = e.cleared := cleared_check c e

end Expr

/-! ## Statements -/

namespace Checker

/-- Checking the first value of a variable fills the slots of the value. -/
theorem cleared_checkValue (c : Checker) (value : Option Expr) :
    (c.checkValue value).tree.map Expr.cleared = value.map Expr.cleared := by
  cases value with
  | none => rfl
  | some e => exact congrArg some (e.cleared_check c)

/-- Checking the declaration of a variable fills the slots of its value, and its own. -/
theorem tree_checkVariable (look : T → V) {seen : V} (c : Checker) (name : String)
    (typeName : Option String) (value : Option Expr) (held : Option Variable) (position : Position)
    {node : Option Expr → Option Variable → T}
    (h : ∀ found slot, found.map Expr.cleared = value.map Expr.cleared →
      look (node found slot) = seen) :
    look (c.checkVariable name typeName value held position node).2.tree = seen := by
  have hvalue := c.cleared_checkValue value
  rw [checkVariable]
  split
  · exact h _ _ rfl
  · simp only
    split
    · exact h _ _ hvalue
    · split
      · exact h _ _ hvalue
      · split <;> exact h _ _ hvalue

end Checker

namespace Stmt

mutual

/-- Checking a statement fills slots, and the statements behind a fault are left as they are. -/
theorem cleared_check : ∀ (stmt : Stmt) (c : Checker), (stmt.check c).2.tree.cleared = stmt.cleared
  | expression e span, c => by
    rw [check]
    split
    · exact congrArg (expression · span) (e.cleared_check c)
    · rfl
  | declaration n typeName value held span, c => by
    rw [check]
    exact Checker.tree_checkVariable cleared c n typeName value held span.start
      fun found slot hfound => congrArg (declaration n typeName · none span) hfound
  | assignment target value span, c => by
    rw [check]
    split
    · refine Checked.tree_andThen cleared ?_ fun ty => ?_
      · simp only [cleared, target.cleared_check c]
      · change (assignment _ (value.checkAs c ty).tree span).cleared = _
        simp only [cleared, target.cleared_check c, value.cleared_checkAs c]
    · rfl
  | conditional condition thenBody elseBody span, c => by
    have hcondition := condition.cleared_checkAs c .boolean
    have hthen := allCleared_checkAll thenBody c.enter
    have helse := allCleared_checkAll elseBody c.enter
    rw [check]
    refine Checked.tree_andThen cleared ?_ fun ty => ?_
    · simp only [cleared, hcondition]
    · split
      · simp only [Checked.fail, cleared, hcondition]
      · refine Checked.tree_andThen cleared ?_ fun _ => ?_ <;>
          simp only [Checked.within, cleared, hcondition, hthen, helse]
  | forEach n items body span, c => by
    have hitems := items.cleared_checkAs c .integerIterable
    rw [check]
    refine Checked.tree_andThen cleared ?_ fun ty => ?_
    · simp only [cleared, hitems]
    · split
      · simp only [Checked.fail, cleared, hitems]
      · split
        · simp only [cleared, hitems]
        · next inner _ =>
          simp only [Checked.within, cleared, hitems, allCleared_checkAll body inner]
  | whileLoop condition body span, c => by
    have hcondition := condition.cleared_checkAs c .boolean
    rw [check]
    refine Checked.tree_andThen cleared ?_ fun ty => ?_ <;>
      simp only [Checked.within, cleared, hcondition, allCleared_checkAll body c.enter]
  | returns value span, c => by
    rw [check]
    exact congrArg (returns · span) (value.cleared_check c)

theorem allCleared_checkAll : ∀ (stmts : List Stmt) (c : Checker),
    allCleared (checkAll c stmts).2.tree = allCleared stmts
  | [], c => rfl
  | stmt :: stmts, c => by
    have hfirst := cleared_check stmt c
    rw [checkAll]
    simp only
    split
    · simp only [allCleared, hfirst]
    · simp only [Checked.within, allCleared, hfirst, allCleared_checkAll stmts]

end

end Stmt

/-! ## Programs -/

/-- A field is a variable like others. -/
theorem Field.cleared_check (c : Checker) (f : Field) : (f.check c).2.tree.cleared = f.cleared := by
  rw [check]
  refine Checker.tree_checkVariable cleared c f.name (some f.typeName) f.value f.binding
    f.span.start fun found slot hfound => ?_
  simp only [cleared, hfound]

/-- A method has its signature in its own slot, and its body has slots of its own. -/
theorem Method.cleared_check (c : Checker) (m : Method) :
    (m.check c).2.tree.cleared = m.cleared := by
  have hbody : ∀ (c : Checker) (m : Method) (f : Signature),
      (checkBody c m f).tree.cleared = m.cleared := by
    intro c m f
    rw [checkBody]
    split
    · rfl
    · simp only [Checked.within, cleared, Stmt.allCleared_checkAll]
  rw [check]
  split
  · rfl
  · split
    · rfl
    · exact hbody _ _ _

namespace Program

/-- What checking leaves of each part it leaves of a list of parts, also behind the first fault. -/
theorem map_checkEach {check : Checker → T → Checker × Checked T Unit} {cleared : T → U}
    (h : ∀ c item, cleared (check c item).2.tree = cleared item) :
    ∀ (items : List T) (c : Checker),
      (checkEach check c items).2.tree.map cleared = items.map cleared
  | [], c => rfl
  | item :: items, c => by
    rw [checkEach]
    simp only
    split
    · simp only [List.map_cons, h]
    · simp only [Checked.within, List.map_cons, h, map_checkEach h items]

/-- Checking fills slots, and does nothing else to a program. -/
theorem cleared_check (c : Checker) (p : Program) : (p.check c).2.tree.cleared = p.cleared := by
  have hfields := map_checkEach Field.cleared_check p.fields c
  have hmethods := map_checkEach Method.cleared_check p.methods
  unfold check
  simp only
  split
  · simp only [cleared, hfields]
  · split <;> simp only [cleared, hfields, hmethods]

/-- So the program is written as before. -/
theorem bare_check (c : Checker) (p : Program) : (p.check c).2.tree.bare = p.bare := by
  rw [← bare_cleared, cleared_check, bare_cleared]

end Program

end TeachLang
