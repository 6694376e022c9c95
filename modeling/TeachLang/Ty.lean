import TeachLang.Diagnostic

/-!
# Types

Types are **nominal**: a type is known by its name, and two types of one name are the same type. A
record type brings its members along, the fields and the signatures of the methods that its values
have. Every type, variable and function also has a name in emitted Java.

* `Ty.isAssignable` says where a value of one type may stand for another: `Any` takes everything,
  `Comparable` takes what has an order.
* A `Registry` holds the types that a program can name.
-/

namespace TeachLang

mutual

/-- A type. -/
structure Ty where
  /-- the name that identifies it -/
  name : String
  /-- its name in Java -/
  javaName : String
  /-- the fields of its values; of two with one name the later counts -/
  fields : List Variable
  /-- the methods of its values; of two with one name and number of parameters the later counts -/
  methods : List Signature

/-- A variable or field and its type. -/
structure Variable where
  /-- its name in programs -/
  name : String
  /-- its name in Java -/
  javaName : String
  /-- the type of its values -/
  ty : Ty

/-- A function or method: functions of one name are told apart by how many parameters they take.
The receiver of a method is no parameter. -/
structure Signature where
  /-- its name in programs -/
  name : String
  /-- its name in Java -/
  javaName : String
  /-- the types of its parameters -/
  parameters : List Ty
  /-- the type of its result -/
  result : Ty

end

/-- Number of parameters of a function. -/
def Signature.arity (f : Signature) : Nat := f.parameters.length

/-- A variable that has the same name in Java. -/
def Variable.plain (name : String) (ty : Ty) : Variable := ⟨name, name, ty⟩

/-- The name under which a missing function is reported. -/
def withArity (name : String) (arity : Nat) : String := name ++ "/" ++ toString arity

namespace Ty

/-- A type whose values have no members. -/
def plain (name javaName : String) : Ty := ⟨name, javaName, [], []⟩

/-- A record type with fields of the given names and types, and methods. -/
def record (name javaName : String) (fields : List (String × Ty)) (methods : List Signature) : Ty :=
  ⟨name, javaName, fields.map fun field => .plain field.1 field.2, methods⟩

instance : Inhabited Ty := ⟨plain "" ""⟩

/-! ## The built-in types -/

/-- The type of the value that stands for no value. -/
def nil : Ty := plain "Nil" "Void"

/-- The type that takes every value. -/
def any : Ty := plain "Any" "Object"

/-- The type that takes every value with an order. -/
def comparable : Ty := plain "Comparable" "Comparable"

/-- The type of truth values. -/
def boolean : Ty := plain "Boolean" "boolean"

/-- The type of whole numbers. -/
def integer : Ty := plain "Integer" "int"

/-- The type of decimal numbers. -/
def decimal : Ty := plain "Decimal" "double"

/-- The type of single characters. -/
def character : Ty := plain "Character" "char"

/-- The type of texts. -/
def string : Ty := plain "String" "String"

/-- The type of what a loop can run over. -/
def integerIterable : Ty := plain "IntegerIterable" "Iterable<Integer>"

/-- All built-in types. -/
def builtins : List Ty :=
  [nil, any, comparable, boolean, integer, decimal, character, string, integerIterable]

/-! ## Members -/

/-- The field of a name. -/
def field? (ty : Ty) (name : String) : Option Variable :=
  ty.fields.reverse.find? fun field => field.name == name

/-- The method of a name and number of arguments. -/
def method? (ty : Ty) (name : String) (arity : Nat) : Option Signature :=
  ty.methods.reverse.find? fun method => method.name == name && method.arity == arity

/-- The field of a name, or the fault of not having it. -/
def field (ty : Ty) (name : String) (position : Position) : Except Diagnostic Variable :=
  match ty.field? name with
  | some field => .ok field
  | none => .error ⟨.undefinedName (ty.name ++ "." ++ name), position⟩

/-- The method of a name and number of arguments, or the fault of not having it. -/
def method (ty : Ty) (name : String) (arity : Nat) (position : Position) :
    Except Diagnostic Signature :=
  match ty.method? name arity with
  | some method => .ok method
  | none => .error ⟨.undefinedName (ty.name ++ "." ++ withArity name arity), position⟩

/-! ## Assignability -/

/-- Whether two types are the same, which is a matter of their names. -/
def same (a b : Ty) : Bool := a.name == b.name

/-- The types whose values have an order. -/
def ordered : List Ty := [integer, decimal, character, string]

/-- Whether a value of the type `source` may be used where `target` is required. -/
def isAssignable (target source : Ty) : Bool :=
  target.same source || target.same any ||
    (target.same comparable && ordered.any source.same)

/-- The fault of a value of the type `source` where `target` is required. -/
def requireAssignable (target source : Ty) (position : Position) : Except Diagnostic Unit :=
  if isAssignable target source then .ok ()
  else .error ⟨.typeMismatch target.name source.name, position⟩

end Ty

/-- The function that prints a value, which every program can call. -/
def Signature.print : Signature := ⟨"print", "System.out.println", [.any], .nil⟩

/-- The types that a program can name. -/
structure Registry where
  /-- the types, no two of one name -/
  types : List Ty

namespace Registry

/-- The registry of the built-in types. -/
def builtin : Registry := ⟨Ty.builtins⟩

/-- The type of a name. -/
def lookup? (registry : Registry) (name : String) : Option Ty :=
  registry.types.find? fun ty => ty.name == name

/-- The type of a name, or the fault of not knowing it. -/
def lookup (registry : Registry) (name : String) (position : Position) : Except Diagnostic Ty :=
  match registry.lookup? name with
  | some ty => .ok ty
  | none => .error ⟨.unknownType name, position⟩

/-- The registry with one more type, whose name must not be taken. -/
def register (registry : Registry) (ty : Ty) : Except Diagnostic Registry :=
  match registry.lookup? ty.name with
  | some _ => .error ⟨.duplicateDefinition ty.name, .nowhere⟩
  | none => .ok ⟨registry.types ++ [ty]⟩

end Registry

end TeachLang
