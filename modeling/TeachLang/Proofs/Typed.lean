import Mathlib.Data.List.Forall2
import TeachLang.Typing.Program

/-!
# Typed trees

Static checking fills the slots of a tree. Here is what the filled slots say, as rules: an
expression **has a type** in a context if its slots and those of its parts fit together, and a
statement is **typed** in a context if its expressions are. The rules speak of the filled tree
alone; how it was checked does not matter to them.

* A `Context` is what a place sees of the variables around it, with their types.
* A `Restriction` is what is asked of a program beyond checking, such as that every variable has a
  first value. `Expr.Obeys` and its kin say that a tree keeps to one.
* A `Regime` is a restriction together with the types that a program may come across, and those of
  them that it can name.
-/

namespace TeachLang

/-! ## Contexts -/

/-- The variables of one scope and their types, in the order of their declaration. -/
abbrev Frame := List (String × Ty)

/-- The variables that are in reach, scope by scope, the innermost first. -/
abbrev Context := List Frame

namespace Context

/-- The type of the variable that a name means. -/
def tyOf? (Γ : Context) (name : String) : Option Ty := Γ.findSome? (·.lookup name)

/-- Declares variables in the innermost scope. -/
def declare (added : Frame) : Context → Context
  | [] => []
  | frame :: frames => (frame ++ added) :: frames

/-- The innermost scope has no variable of the name. -/
def Fresh (name : String) : Context → Prop
  | [] => False
  | frame :: _ => frame.lookup name = none

end Context

/-- The functions that can be called, known by name and number of parameters. -/
abbrev Functions := List ((String × Nat) × Signature)

/-- The variables that a statement adds to its scope, by what its slot says. -/
def Stmt.declared : Stmt → Frame
  | .declaration name _ _ (some v) _ => [(name, v.ty)]
  | _ => []

/-! ## Restrictions -/

namespace Stmt

mutual

/-- Whether a statement returns on every path through it. -/
def returnsAlways : Stmt → Bool
  | returns _ _ => true
  | conditional _ thenBody elseBody _ => someReturns thenBody && someReturns elseBody
  | _ => false

/-- Whether one of the statements returns on every path through it, so that those behind it are
never reached. -/
def someReturns : List Stmt → Bool
  | [] => false
  | stmt :: stmts => returnsAlways stmt || someReturns stmts

end

end Stmt

/-- What is asked of a program beyond static checking. -/
structure Restriction where
  /-- the types that the operands of an operator may have -/
  operands : Operator → Ty → Ty → Prop
  /-- whether a variable may be without a first value -/
  unset : Prop
  /-- the types of what a method with a result type may return -/
  returned : Ty → Ty → Prop
  /-- the result types of methods that may come to their end without returning -/
  ends : Ty → Prop

namespace Expr

mutual

/-- An expression keeps to a restriction. -/
def Obeys (r : Restriction) : Expr → Prop
  | literal .. | name .. => True
  | group inner _ _ => Obeys r inner
  | binary operator left right _ _ =>
    Obeys r left ∧ Obeys r right ∧
      ∀ a b, left.ty? = some a → right.ty? = some b → r.operands operator a b
  | member receiver _ _ _ => Obeys r receiver
  | call _ arguments _ _ => AllObey r arguments
  | methodCall receiver _ arguments _ _ => Obeys r receiver ∧ AllObey r arguments

/-- Expressions all keep to a restriction. -/
def AllObey (r : Restriction) : List Expr → Prop
  | [] => True
  | e :: es => Obeys r e ∧ AllObey r es

end

end Expr

/-- The first value of a variable keeps to a restriction. -/
def Restriction.ObeyedBy (r : Restriction) : Option Expr → Prop
  | none => r.unset
  | some e => e.Obeys r

namespace Stmt

mutual

/-- A statement of a method with the given result type keeps to a restriction. -/
def Obeys (r : Restriction) (result : Ty) : Stmt → Prop
  | expression e _ => e.Obeys r
  | declaration _ _ value _ _ => r.ObeyedBy value
  | assignment target value _ => target.Obeys r ∧ value.Obeys r
  | conditional condition thenBody elseBody _ =>
    condition.Obeys r ∧ AllObey r result thenBody ∧ AllObey r result elseBody
  | forEach _ items body _ => items.Obeys r ∧ AllObey r result body
  | whileLoop condition body _ => condition.Obeys r ∧ AllObey r result body
  | returns value _ => value.Obeys r ∧ ∀ ty, value.ty? = some ty → r.returned result ty

/-- Statements of a method with the given result type all keep to a restriction. -/
def AllObey (r : Restriction) (result : Ty) : List Stmt → Prop
  | [] => True
  | stmt :: stmts => Obeys r result stmt ∧ AllObey r result stmts

end

end Stmt

/-- A method keeps to a restriction. -/
def Method.Obeys (r : Restriction) (m : Method) : Prop :=
  ∀ f, m.callee = some f →
    Stmt.AllObey r f.result m.body ∧ (Stmt.someReturns m.body ∨ r.ends f.result)

/-- A program keeps to a restriction. -/
def Program.Obeys (r : Restriction) (p : Program) : Prop :=
  (∀ f ∈ p.fields, r.ObeyedBy f.value) ∧ ∀ m ∈ p.methods, m.Obeys r

/-! ## Rules -/

/-- What is asked of a program, and the types that it may come across. -/
structure Regime extends Restriction where
  /-- the types that a program may come across -/
  known : Ty → Prop
  /-- the types that a program can name, or leave a variable without a value of -/
  nameable : Ty → Prop := known

/-- The built-in types can be named, what can be named is known, and so are the types of the members
of known types. -/
structure Regime.Closed (R : Regime) : Prop where
  /-- the built-in types -/
  builtin : ∀ {ty}, ty ∈ Ty.builtins → R.nameable ty
  /-- the types that can be named -/
  named : ∀ {ty}, R.nameable ty → R.known ty
  /-- the types of fields -/
  field : ∀ {ty n v}, R.known ty → ty.field? n = some v → R.known v.ty
  /-- the types in signatures of methods -/
  method : ∀ {ty n k f}, R.known ty → ty.method? n k = some f →
    (∀ parameter ∈ f.parameters, R.known parameter) ∧ R.known f.result

theorem Regime.Closed.known_builtin {R : Regime} (h : R.Closed) {ty : Ty} (hty : ty ∈ Ty.builtins) :
    R.known ty := h.named (h.builtin hty)

/-- A value of the type `source` may be put where the known type `target` is required. -/
def Regime.Accepts (R : Regime) (target source : Ty) : Prop :=
  R.known target ∧ target.isAssignable source

mutual

/-- An expression has a type in a context. -/
inductive Expr.HasTy (R : Regime) (Δ : Functions) (Γ : Context) : Expr → Ty → Prop where
  /-- a constant has its own type -/
  | literal {value : Literal} {span : Span} :
    Expr.HasTy R Δ Γ (.literal value (some value.ty) span) value.ty
  /-- parentheses change nothing -/
  | group {inner : Expr} {ty : Ty} {span : Span} :
    Expr.HasTy R Δ Γ inner ty → Expr.HasTy R Δ Γ (.group inner (some ty) span) ty
  /-- operators have the types of their table -/
  | binary {operator : Operator} {left right : Expr} {a b ty : Ty} {span : Span} :
    Expr.HasTy R Δ Γ left a → Expr.HasTy R Δ Γ right b → R.operands operator a b →
    operator.result? a b = some ty →
    Expr.HasTy R Δ Γ (.binary operator left right (some ty) span) ty
  /-- a variable has its declared type -/
  | name {n : String} {v : Variable} {span : Span} :
    Γ.tyOf? n = some v.ty → Expr.HasTy R Δ Γ (.name n (some v) span) v.ty
  /-- a field has the type that the type of its receiver gives it -/
  | member {receiver : Expr} {n : String} {v : Variable} {owner : Ty} {span : Span} :
    Expr.HasTy R Δ Γ receiver owner → R.known owner → owner.field? n = some v →
    Expr.HasTy R Δ Γ (.member receiver n (some v) span) v.ty
  /-- a call has the type of the function's result -/
  | call {n : String} {arguments : List Expr} {tys : List Ty} {f : Signature} {span : Span} :
    Expr.HaveTys R Δ Γ arguments tys → Δ.lookup (n, arguments.length) = some f →
    List.Forall₂ R.Accepts f.parameters tys →
    Expr.HasTy R Δ Γ (.call n arguments (some f) span) f.result
  /-- so has a call of a method of a receiver -/
  | methodCall {receiver : Expr} {n : String} {arguments : List Expr} {tys : List Ty}
      {f : Signature} {owner : Ty} {span : Span} :
    Expr.HasTy R Δ Γ receiver owner → R.known owner → Expr.HaveTys R Δ Γ arguments tys →
    owner.method? n arguments.length = some f → List.Forall₂ R.Accepts f.parameters tys →
    Expr.HasTy R Δ Γ (.methodCall receiver n arguments (some f) span) f.result

/-- Expressions have types in a context. -/
inductive Expr.HaveTys (R : Regime) (Δ : Functions) (Γ : Context) :
    List Expr → List Ty → Prop where
  /-- no expressions -/
  | nil : Expr.HaveTys R Δ Γ [] []
  /-- an expression and others -/
  | cons {e : Expr} {es : List Expr} {ty : Ty} {tys : List Ty} :
    Expr.HasTy R Δ Γ e ty → Expr.HaveTys R Δ Γ es tys → Expr.HaveTys R Δ Γ (e :: es) (ty :: tys)

end

/-- A variable of a type may start with a value, or without one. -/
inductive Expr.Starts (R : Regime) (Δ : Functions) (Γ : Context) (target : Ty) :
    Option Expr → Prop where
  /-- without a value its type must have been named -/
  | unset : R.unset → R.nameable target → Expr.Starts R Δ Γ target none
  /-- its type takes the value -/
  | value {e : Expr} {ty : Ty} :
    e.HasTy R Δ Γ ty → R.Accepts target ty → Expr.Starts R Δ Γ target (some e)

mutual

/-- A statement of a method with the given result type is typed in a context. -/
inductive Stmt.Typed (R : Regime) (Δ : Functions) (result : Ty) : Context → Stmt → Prop where
  /-- an expression has any type -/
  | expression {Γ : Context} {e : Expr} {ty : Ty} {span : Span} :
    e.HasTy R Δ Γ ty → Stmt.Typed R Δ result Γ (.expression e span)
  /-- a variable has a name that its scope does not have yet -/
  | declaration {Γ : Context} {n : String} {typeName : Option String} {value : Option Expr}
      {v : Variable} {span : Span} :
    Expr.Starts R Δ Γ v.ty value → Γ.Fresh n →
    Stmt.Typed R Δ result Γ (.declaration n typeName value (some v) span)
  /-- the type of the target takes the value -/
  | assignment {Γ : Context} {target value : Expr} {a b : Ty} {span : Span} :
    target.isAccess → target.HasTy R Δ Γ a → value.HasTy R Δ Γ b → R.Accepts a b →
    Stmt.Typed R Δ result Γ (.assignment target value span)
  /-- both bodies are blocks -/
  | conditional {Γ : Context} {condition : Expr} {thenBody elseBody : List Stmt} {ty : Ty}
      {span : Span} :
    condition.HasTy R Δ Γ ty → R.Accepts .boolean ty →
    Stmt.AllTyped R Δ result ([] :: Γ) thenBody → Stmt.AllTyped R Δ result ([] :: Γ) elseBody →
    Stmt.Typed R Δ result Γ (.conditional condition thenBody elseBody span)
  /-- the body is a block that starts with the variable of the loop -/
  | forEach {Γ : Context} {n : String} {items : Expr} {body : List Stmt} {ty : Ty} {span : Span} :
    items.HasTy R Δ Γ ty → R.Accepts .integerIterable ty →
    Stmt.AllTyped R Δ result ([(n, .integer)] :: Γ) body →
    Stmt.Typed R Δ result Γ (.forEach n items body span)
  /-- the body is a block -/
  | whileLoop {Γ : Context} {condition : Expr} {body : List Stmt} {ty : Ty} {span : Span} :
    condition.HasTy R Δ Γ ty → R.Accepts .boolean ty → Stmt.AllTyped R Δ result ([] :: Γ) body →
    Stmt.Typed R Δ result Γ (.whileLoop condition body span)
  /-- the result type of the method allows what is returned -/
  | returns {Γ : Context} {value : Expr} {ty : Ty} {span : Span} :
    value.HasTy R Δ Γ ty → R.returned result ty → Stmt.Typed R Δ result Γ (.returns value span)

/-- Statements are typed, each in the context that those before it leave. -/
inductive Stmt.AllTyped (R : Regime) (Δ : Functions) (result : Ty) :
    Context → List Stmt → Prop where
  /-- no statements -/
  | nil {Γ : Context} : Stmt.AllTyped R Δ result Γ []
  /-- a statement and those behind it -/
  | cons {Γ : Context} {stmt : Stmt} {stmts : List Stmt} :
    Stmt.Typed R Δ result Γ stmt → Stmt.AllTyped R Δ result (Γ.declare stmt.declared) stmts →
    Stmt.AllTyped R Δ result Γ (stmt :: stmts)

end

/-- The variables that the parameters of a method are. -/
def Method.frame (m : Method) (f : Signature) : Frame :=
  m.parameters.zipWith (fun parameter ty => (parameter.1, ty)) f.parameters

/-- A method is typed under a signature, given the variables of the root. -/
structure Method.Typed (R : Regime) (Δ : Functions) (globals : Frame) (m : Method) (f : Signature) :
    Prop where
  /-- it has as many parameters as the signature -/
  arity : m.parameters.length = f.parameters.length
  /-- no two parameters have one name -/
  distinct : (m.parameters.map Prod.fst).Nodup
  /-- the type of its result can be named -/
  result : R.nameable f.result
  /-- its statements see its parameters and the root -/
  body : Stmt.AllTyped R Δ f.result [m.frame f, globals] m.body
  /-- it returns something, or need not -/
  returns : Stmt.someReturns m.body ∨ R.ends f.result

/-- Fields are typed, each given the variables of the root that are there before it. The last
frame is what the root has in the end. -/
inductive Field.AllTyped (R : Regime) (Δ : Functions) : Frame → List Field → Frame → Prop where
  /-- no fields -/
  | nil {globals : Frame} : Field.AllTyped R Δ globals [] globals
  /-- a field and those behind it -/
  | cons {globals last : Frame} {f : Field} {v : Variable} {fields : List Field} :
    f.binding = some v → Expr.Starts R Δ [globals] v.ty f.value → globals.lookup f.name = none →
    Field.AllTyped R Δ (globals ++ [(f.name, v.ty)]) fields last →
    Field.AllTyped R Δ globals (f :: fields) last

/-- Methods are typed, given the functions that there are in the end. Each has a signature under a
key that the functions before it do not have. -/
inductive Method.AllTyped (R : Regime) (Δ : Functions) (globals : Frame) :
    Functions → List Method → Prop where
  /-- no methods -/
  | nil : Method.AllTyped R Δ globals Δ []
  /-- a method and those behind it -/
  | cons {before : Functions} {m : Method} {f : Signature} {methods : List Method} :
    m.callee = some f → m.Typed R Δ globals f →
    before.lookup (m.name, m.parameters.length) = none →
    Method.AllTyped R Δ globals (before ++ [((m.name, m.parameters.length), f)]) methods →
    Method.AllTyped R Δ globals before (m :: methods)

/-- A program is typed in a root that has some functions and variables already. With its own it
comes to the functions `Δ` and the variables `globals`. -/
structure Program.Typed (R : Regime) (before : Functions) (host : Frame) (p : Program)
    (Δ : Functions) (globals : Frame) : Prop where
  /-- its fields, which can only call what was there before -/
  fields : Field.AllTyped R before host p.fields globals
  /-- its methods, which can call each other -/
  methods : Method.AllTyped R Δ globals before p.methods
  /-- there is a function to start with -/
  entry : ∃ f, Δ.lookup (Program.entryName, 0) = some f ∧ f.parameters = [] ∧
    Ty.isAssignable .integer f.result

/-! ## What the rules give -/

/-- The slot of an expression holds the type that it has. -/
theorem Expr.HasTy.ty? {R : Regime} {Δ : Functions} {Γ : Context} {e : Expr} {ty : Ty}
    (h : e.HasTy R Δ Γ ty) : e.ty? = some ty := by
  cases h <;> rfl

theorem Expr.HaveTys.length_eq {R : Regime} {Δ : Functions} {Γ : Context} :
    ∀ {es : List Expr} {tys : List Ty}, Expr.HaveTys R Δ Γ es tys → es.length = tys.length
  | _, _, .nil => rfl
  | _, _, .cons _ h => congrArg (· + 1) h.length_eq

end TeachLang
