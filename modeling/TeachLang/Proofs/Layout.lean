import TeachLang.Proofs.Slots
import TeachLang.Java

/-!
# Trees without places

A tree, a token or a diagnostic is **unplaced** by forgetting where it stands, so two of them are
the same up to layout if they are the same when they are unplaced. Slots are left as they are: what
they hold has no place in the program.

Emission copies no place into its text.
-/

namespace TeachLang

/-! ## Unplaced trees -/

/-- A token that stands nowhere. -/
def Token.unplaced (token : Token) : Token := { token with span := default }

theorem Token.kind_of_unplaced {token token' : Token} (h : token.unplaced = token'.unplaced) :
    token.kind = token'.kind :=
  (Token.mk.inj h).1

theorem Token.value_of_unplaced {token token' : Token} (h : token.unplaced = token'.unplaced) :
    token.value = token'.value :=
  (Token.mk.inj h).2.1

/-- A diagnostic that shows nowhere. -/
def Diagnostic.unplaced (d : Diagnostic) : Diagnostic := { d with position := default }

namespace Expr

mutual

/-- An expression without its spans. -/
def unplaced : Expr → Expr
  | literal value ty _ => literal value ty default
  | group inner ty _ => group inner.unplaced ty default
  | binary operator left right ty _ => binary operator left.unplaced right.unplaced ty default
  | name n binding _ => name n binding default
  | member receiver n binding _ => member receiver.unplaced n binding default
  | call n arguments callee _ => call n (allUnplaced arguments) callee default
  | methodCall receiver n arguments callee _ =>
    methodCall receiver.unplaced n (allUnplaced arguments) callee default

/-- Expressions without their spans. -/
def allUnplaced : List Expr → List Expr
  | [] => []
  | first :: others => first.unplaced :: allUnplaced others

end

@[simp] theorem span_unplaced (e : Expr) : e.unplaced.span = default := by
  cases e <;> rfl

@[simp] theorem isBinary_unplaced (e : Expr) : e.unplaced.isBinary = e.isBinary := by
  cases e <;> rfl

@[simp] theorem isCall_unplaced (e : Expr) : e.unplaced.isCall = e.isCall := by
  cases e <;> rfl

@[simp] theorem isAccess_unplaced (e : Expr) : e.unplaced.isAccess = e.isAccess := by
  cases e <;> rfl

end Expr

namespace Stmt

mutual

/-- A statement without its spans. -/
def unplaced : Stmt → Stmt
  | expression e _ => expression e.unplaced default
  | declaration n typeName value binding _ =>
    declaration n typeName (value.map Expr.unplaced) binding default
  | assignment target value _ => assignment target.unplaced value.unplaced default
  | conditional condition thenBody elseBody _ =>
    conditional condition.unplaced (allUnplaced thenBody) (allUnplaced elseBody) default
  | forEach n items body _ => forEach n items.unplaced (allUnplaced body) default
  | whileLoop condition body _ => whileLoop condition.unplaced (allUnplaced body) default
  | returns value _ => returns value.unplaced default

/-- Statements without their spans. -/
def allUnplaced : List Stmt → List Stmt
  | [] => []
  | first :: others => first.unplaced :: allUnplaced others

end

@[simp] theorem isEmpty_allUnplaced (stmts : List Stmt) :
    (allUnplaced stmts).isEmpty = stmts.isEmpty := by
  cases stmts <;> rfl

end Stmt

/-- A field without its spans. -/
def Field.unplaced (f : Field) : Field :=
  { f with value := f.value.map Expr.unplaced, span := default }

/-- A method without its spans. -/
def Method.unplaced (m : Method) : Method :=
  { m with body := Stmt.allUnplaced m.body, span := default }

/-- A program without its spans. -/
def Program.unplaced (p : Program) : Program :=
  ⟨p.fields.map Field.unplaced, p.methods.map Method.unplaced, default⟩

/-- A result without the places in it, given what is left of a good one. -/
def unplacedResult {α β : Type} (strip : α → β) : Except Diagnostic α → Except Diagnostic β
  | .ok found => .ok (strip found)
  | .error d => .error d.unplaced

/-! ## Emission -/

section Emission

variable {α β : Type}

/-- Steps that agree up to places agree one after the other. -/
theorem unplacedResult_bind {first first' : Except Diagnostic α}
    {next next' : α → Except Diagnostic β} (h : first' = unplacedResult id first)
    (hnext : ∀ found, next' found = unplacedResult id (next found)) :
    (first' >>= next') = unplacedResult id (first >>= next) := by
  subst h
  cases first with
  | ok found => exact hnext found
  | error d => rfl

/-- So do the runs of one step over a list of parts. -/
theorem unplacedResult_mapM {f : α → Except Diagnostic β} {unplaced : α → α}
    (h : ∀ x, f (unplaced x) = unplacedResult id (f x)) (xs : List α) :
    (xs.map unplaced).mapM f = unplacedResult id (xs.mapM f) := by
  induction xs with
  | nil => rfl
  | cons x xs ih =>
    rw [List.map_cons, List.mapM_cons, List.mapM_cons]
    exact unplacedResult_bind (h x) fun _ => unplacedResult_bind ih fun _ => rfl

/-- Whether a slot is filled does not depend on where its tree stands, only the place of the fault
does. -/
theorem Java.filled_unplaced (slot : Option α) (span : Span) :
    filled slot default = unplacedResult id (filled slot span) := by
  cases slot <;> rfl

namespace Expr

mutual

/-- The text of an expression has no places in it, nor has the choice of what is missing first. -/
theorem java_unplaced : ∀ e : Expr, e.unplaced.java = unplacedResult id e.java
  | literal value ty span => by
    rw [unplaced, java, java]
    exact unplacedResult_bind (Java.filled_unplaced ty span) fun _ => rfl
  | group inner ty span => by
    rw [unplaced, java, java]
    exact unplacedResult_bind (Java.filled_unplaced ty span) fun _ =>
      unplacedResult_bind (java_unplaced inner) fun _ => rfl
  | binary operator left right ty span => by
    rw [unplaced, java, java]
    exact unplacedResult_bind (Java.filled_unplaced ty span) fun _ =>
      unplacedResult_bind (java_unplaced left) fun _ =>
        unplacedResult_bind (java_unplaced right) fun _ => rfl
  | name n binding span => by
    rw [unplaced, java, java]
    exact unplacedResult_bind (Java.filled_unplaced binding span) fun _ => rfl
  | member receiver n binding span => by
    rw [unplaced, java, java]
    exact unplacedResult_bind (Java.filled_unplaced binding span) fun _ =>
      unplacedResult_bind (java_unplaced receiver) fun _ => rfl
  | call n arguments callee span => by
    rw [unplaced, java, java]
    exact unplacedResult_bind (Java.filled_unplaced callee span) fun _ =>
      unplacedResult_bind (javaAll_unplaced arguments) fun _ => rfl
  | methodCall receiver n arguments callee span => by
    rw [unplaced, java, java]
    exact unplacedResult_bind (Java.filled_unplaced callee span) fun _ =>
      unplacedResult_bind (java_unplaced receiver) fun _ =>
        unplacedResult_bind (javaAll_unplaced arguments) fun _ => rfl

theorem javaAll_unplaced : ∀ es : List Expr,
    javaAll (allUnplaced es) = unplacedResult id (javaAll es)
  | [] => rfl
  | e :: es => by
    rw [allUnplaced, javaAll, javaAll]
    exact unplacedResult_bind (java_unplaced e) fun _ =>
      unplacedResult_bind (javaAll_unplaced es) fun _ => rfl

end

end Expr

/-- The first value of a variable is all that its declaration takes from the tree. -/
theorem Java.declaration_unplaced (v : Variable) (value : Option Expr) :
    declaration v (value.map Expr.unplaced) = unplacedResult id (declaration v value) := by
  cases value with
  | none => rfl
  | some e =>
    have hvalue : (some e.unplaced).mapM Expr.java = unplacedResult id ((some e).mapM Expr.java) :=
      unplacedResult_bind e.java_unplaced fun _ => rfl
    exact unplacedResult_bind hvalue fun _ => rfl

namespace Stmt

mutual

/-- The lines of a statement depend on its depth, and not on its spans. -/
theorem java_unplaced : ∀ (stmt : Stmt) (depth : Nat),
    stmt.unplaced.java depth = unplacedResult id (stmt.java depth)
  | expression e span, depth => by
    rw [unplaced, java, java]
    exact unplacedResult_bind e.java_unplaced fun _ => rfl
  | declaration n typeName value binding span, depth => by
    rw [unplaced, java, java]
    exact unplacedResult_bind (Java.filled_unplaced binding span) fun v =>
      unplacedResult_bind (Java.declaration_unplaced v value) fun _ => rfl
  | assignment target value span, depth => by
    rw [unplaced, java, java]
    exact unplacedResult_bind target.java_unplaced fun _ =>
      unplacedResult_bind value.java_unplaced fun _ => rfl
  | conditional condition thenBody elseBody span, depth => by
    rw [unplaced, java, java]
    exact unplacedResult_bind condition.java_unplaced fun _ =>
      unplacedResult_bind (javaAll_unplaced thenBody _) fun _ =>
        unplacedResult_bind (javaAll_unplaced elseBody _) fun _ => rfl
  | forEach n items body span, depth => by
    rw [unplaced, java, java]
    exact unplacedResult_bind items.java_unplaced fun _ =>
      unplacedResult_bind (javaAll_unplaced body _) fun _ => rfl
  | whileLoop condition body span, depth => by
    rw [unplaced, java, java]
    exact unplacedResult_bind condition.java_unplaced fun _ =>
      unplacedResult_bind (javaAll_unplaced body _) fun _ => rfl
  | returns value span, depth => by
    rw [unplaced, java, java]
    exact unplacedResult_bind value.java_unplaced fun _ => rfl

theorem javaAll_unplaced : ∀ (stmts : List Stmt) (depth : Nat),
    javaAll depth (allUnplaced stmts) = unplacedResult id (javaAll depth stmts)
  | [], depth => rfl
  | stmt :: stmts, depth => by
    rw [allUnplaced, javaAll, javaAll]
    exact unplacedResult_bind (java_unplaced stmt depth) fun _ =>
      unplacedResult_bind (javaAll_unplaced stmts depth) fun _ => rfl

end

end Stmt

/-- A field without its spans is emitted as the same lines. -/
theorem Field.java_unplaced (f : Field) : f.unplaced.java = unplacedResult id f.java :=
  unplacedResult_bind (Java.filled_unplaced f.binding f.span) fun v =>
    unplacedResult_bind (Java.declaration_unplaced v f.value) fun _ => rfl

/-- A method without its spans is emitted as the same lines. -/
theorem Method.java_unplaced (m : Method) : m.unplaced.java = unplacedResult id m.java :=
  unplacedResult_bind (Java.filled_unplaced m.callee m.span) fun _ =>
    unplacedResult_bind (Stmt.javaAll_unplaced m.body 2) fun _ => rfl

/-- A program without its spans is emitted as the same text. -/
theorem Program.java_unplaced (p : Program) : p.unplaced.java = unplacedResult id p.java := by
  have hlines : p.unplaced.javaLines = unplacedResult id p.javaLines :=
    unplacedResult_bind (unplacedResult_mapM Field.java_unplaced p.fields) fun _ =>
      unplacedResult_bind (unplacedResult_mapM Method.java_unplaced p.methods) fun _ => rfl
  exact unplacedResult_bind hlines fun _ => rfl

end Emission

end TeachLang
