import TeachLang.Syntax
import TeachLang.Decimal.Written
import TeachLang.Value.Fields

/-!
# Values

What expressions evaluate to. Every value carries its type as a tag: an **atom** is a constant, an
**iterable** has items, and a **record** has named fields.

The fields of a record are kept in the ascending order of their names, by their type (`Fields`), so
that a record does not tell in which order it was built. Its methods are implemented outside the
language; the record only knows each by a number, its handle, and a `Host` says what the methods do.
-/

namespace TeachLang

/-- A value. -/
inductive Value where
  /-- a constant -/
  | atom (ty : Ty) (literal : Literal)
  /-- a series of values -/
  | iterable (ty : Ty) (items : List Value)
  /-- named values, and the handles of methods that are known by name and number of arguments -/
  | record (ty : Ty) (fields : Fields Value none) (methods : List ((String × Nat) × Nat))

/-- What the methods of records do: given a handle, the receiver and the arguments. -/
abbrev Host := Nat → Value → List Value → Except Diagnostic Value

/-- A function that is implemented outside the language. -/
abbrev Native := List Value → Except Diagnostic Value

namespace Value

/-- The type of a value. -/
def ty : Value → Ty
  | atom ty _ | iterable ty _ | record ty _ _ => ty

/-! ## Making values -/

/-- A constant under its own type. -/
def ofLiteral (literal : Literal) : Value := atom literal.ty literal

instance : Inhabited Value := ⟨ofLiteral .nil⟩

/-- The value that stands for no value. -/
def nil : Value := ofLiteral .nil

/-- A truth value. -/
def boolean (b : Bool) : Value := ofLiteral (.boolean b)

/-- A whole number. -/
def integer (n : Int) : Value := ofLiteral (.integer n)

/-- A decimal number. -/
def decimal (d : Decimal) : Value := ofLiteral (.decimal d)

/-- One character. -/
def character (c : Char) : Value := ofLiteral (.character c)

/-- A text. -/
def string (s : String) : Value := ofLiteral (.string s)

/-- Values that a loop can run over. -/
def items (values : List Value) : Value := iterable .integerIterable values

/-- Whole numbers that a loop can run over. -/
def integers (numbers : List Int) : Value := items (numbers.map integer)

/-- A record with the given fields and methods. A later field or method takes the place of an
earlier one that is known alike. -/
def ofFields (ty : Ty) (fields : List (String × Value)) (methods : List ((String × Nat) × Nat)) :
    Value :=
  record ty (.ofList fields) methods.reverse

/-! ## The text of a value -/

/-- The text of a truth value. -/
def truthText (b : Bool) : String := if b then "true" else "false"

/-- The text of a constant. -/
def literalText : Literal → String
  | .nil => "NIL"
  | .boolean b => truthText b
  | .integer n => toString n
  | .decimal d => d.write
  | .character c => c.toString
  | .string s => s

mutual

/-- The text of a value, as it is printed. -/
def text : Value → String
  | atom _ literal => literalText literal
  | iterable _ items => "[" ++ ", ".intercalate (itemTexts items) ++ "]"
  | record ty fields _ => ty.name ++ " \x7b " ++ ", ".intercalate (fieldTexts fields) ++ " \x7d"

/-- The texts of items. -/
def itemTexts : List Value → List String
  | [] => []
  | value :: values => text value :: itemTexts values

/-- The texts of fields. -/
def fieldTexts {bound : Option String} : Fields Value bound → List String
  | .nil => []
  | .cons name _ value others => (name ++ ": " ++ text value) :: fieldTexts others

end

/-! ## Equality -/

/-- Whether two constants are the same. Decimals are compared by value here. -/
def sameLiteral : Literal → Literal → Bool
  | .decimal a, .decimal b => a.sameValue b
  | a, b => decide (a = b)

mutual

/-- Whether two values are the same: of one type, of one form and with the same parts. The methods
of a record do not count. -/
def same : Value → Value → Bool
  | atom s a, atom t b => s.same t && sameLiteral a b
  | iterable s as, iterable t bs => s.same t && sameItems as bs
  | record s as _, record t bs _ => s.same t && sameFields as bs
  | _, _ => false

/-- Whether two lists of items are the same. -/
def sameItems : List Value → List Value → Bool
  | [], [] => true
  | a :: as, b :: bs => same a b && sameItems as bs
  | _, _ => false

/-- Whether two records have the same fields. They come in the order of their names in both. -/
def sameFields {low high : Option String} : Fields Value low → Fields Value high → Bool
  | .nil, .nil => true
  | .cons m _ a as, .cons n _ b bs => m == n && same a b && sameFields as bs
  | _, _ => false

end

/-! ## Members -/

/-- The fault of a member that a value does not have. -/
def missing (value : Value) (member : String) (position : Position) : Diagnostic :=
  ⟨.undefinedName (value.ty.name ++ "." ++ member), position⟩

/-- The field of a name. -/
def field? : Value → String → Option Value
  | record _ fields _, name => fields.lookup name
  | _, _ => none

/-- The field of a name, or the fault of not having it. -/
def field (value : Value) (name : String) (position : Position) : Except Diagnostic Value :=
  match value.field? name with
  | some v => .ok v
  | none => .error (value.missing name position)

/-- The value with another value for one of its fields, which it must have. -/
def withField (value : Value) (name : String) (new : Value) : Value :=
  match value with
  | record ty fields methods => record ty (fields.set name new) methods
  | other => other

/-- The value with another value for a field, or the fault of not having it. -/
def setField (value : Value) (name : String) (new : Value) (position : Position) :
    Except Diagnostic Value :=
  match value.field? name with
  | some _ => .ok (value.withField name new)
  | none => .error (value.missing name position)

/-- A way to a part of a value: the names of fields, each with the place where it is written. -/
abbrev Path := List (String × Position)

/-- The value with the part at the end of a path changed. -/
def change (f : Value → Except Diagnostic Value) : Path → Value → Except Diagnostic Value
  | [], value => f value
  | (name, position) :: path, value => do
    let part ← value.field name position
    let new ← change f path part
    return value.withField name new

/-- The part of a value at the end of a path. -/
def follow : Path → Value → Except Diagnostic Value
  | [], value => .ok value
  | (name, position) :: path, value => do follow path (← value.field name position)

/-- The handle of a method. -/
def handle? : Value → String → Nat → Option Nat
  | record _ _ methods, name, arity => methods.lookup (name, arity)
  | _, _, _ => none

/-- What a method of a value answers, or the fault of not having the method. -/
def callMethod (host : Host) (value : Value) (name : String) (arguments : List Value)
    (position : Position) : Except Diagnostic Value :=
  match value.handle? name arguments.length with
  | some handle => host handle value arguments
  | none => .error (value.missing (withArity name arguments.length) position)

end Value

end TeachLang
