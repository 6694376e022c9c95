import TeachLang.Syntax.ReadStmt

/-!
# Reading programs

A program is a list of fields followed by a list of methods, up to the end of the text.
-/

namespace TeachLang

namespace Cursor

/-- Reads a field. -/
def field (c : Cursor) : Except Failure (Read c.remaining Field) := do
  let ⟨word, next, h⟩ ← c.expect .letWord
  let ⟨name, next, h⟩ := (← next.expectName "expected identifier during field declaration").after h
  let ⟨_, next, h⟩ := (← next.expectFor .colon "fields require an explicit type").after h
  let ⟨typeName, next, h⟩ := (← next.expectName "expected a type name").after h
  let ⟨value, next, h⟩ := (← next.firstValue).orAfter h
  let ⟨_, next, h⟩ := (← next.expect .semicolon).after h
  return ⟨⟨name, typeName, value, none, ⟨word.span.start, next.before⟩⟩, next, h⟩

/-- Reads parameters of a method, one at least. -/
def parameters (c : Cursor) : Except Failure (Read c.remaining (List (String × String))) := do
  let ⟨name, next, h⟩ ← c.expectName "expected a parameter name"
  let ⟨_, next, h⟩ := (← next.expect .colon).after h
  let ⟨typeName, next, h⟩ := (← next.expectName "expected a type name").after h
  if next.kind = .comma then
    let ⟨_, next, h⟩ := (← next.expect .comma).after h
    let ⟨others, next, h⟩ := (← parameters next).after h
    return ⟨(name, typeName) :: others, next, h⟩
  else return ⟨[(name, typeName)], next, h⟩
termination_by c.remaining

/-- Reads the parameters of a method, with their parentheses. -/
def parameterList (c : Cursor) : Except Failure (Read c.remaining (List (String × String))) := do
  let ⟨_, next, h⟩ ← c.expect .openParen
  if next.kind = .closeParen then
    let ⟨_, next, h⟩ := (← next.expect .closeParen).after h
    return ⟨[], next, h⟩
  else
    let ⟨list, next, h⟩ := (← next.parameters).after h
    let ⟨_, next, h⟩ :=
      (← next.expectFor .closeParen "expected `,` or `)` in parameter list").after h
    return ⟨list, next, h⟩

/-- Reads a method. -/
def method (c : Cursor) : Except Failure (Read c.remaining Method) := do
  let ⟨word, next, h⟩ ← c.expect .defWord
  let ⟨name, next, h⟩ := (← next.expectName "expected identifier during method declaration").after h
  let ⟨parameters, next, h⟩ := (← next.parameterList).after h
  let ⟨resultTypeName, next, h⟩ := (← next.typeMark "expected a return type name").orAfter h
  let ⟨_, next, h⟩ := (← next.expect .doWord).after h
  let ⟨body, next, h⟩ := (← next.block [.endWord]).orAfter h
  let ⟨_, next, h⟩ := (← next.expect .endWord).after h
  let span : Span := ⟨word.span.start, next.before⟩
  return ⟨⟨name, parameters, resultTypeName, body, none, span⟩, next, h⟩

/-- Reads methods up to the end of the text. -/
def methods (c : Cursor) : Except Failure (Read (c.remaining + 1) (List Method)) :=
  if c.hasTokens then
    match c.kind with
    | .defWord => do
      let ⟨first, next, h⟩ ← c.method
      let ⟨others, next, h⟩ := (← methods next).orAfter h
      return .loose ⟨first :: others, next, h⟩
    | .letWord => c.fail (c.unexpectedFor "fields must be declared before methods")
    | _ => c.fail (c.unexpectedFor "expected a field (LET) or a method (DEF)")
  else return .nothing [] c
termination_by c.remaining

/-- Reads fields for as long as there are any. -/
def fields (c : Cursor) : Except Failure (Read (c.remaining + 1) (List Field)) :=
  if c.kind = .letWord then do
    let ⟨first, next, h⟩ ← c.field
    let ⟨others, next, h⟩ := (← fields next).orAfter h
    return .loose ⟨first :: others, next, h⟩
  else return .nothing [] c
termination_by c.remaining

/-- Reads a whole program. -/
def program (c : Cursor) : Except Failure (Read (c.remaining + 1) Program) := do
  let ⟨fields, next, h⟩ ← c.fields
  let ⟨methods, next, h⟩ := (← next.methods).orAfter h
  return ⟨⟨fields, methods, ⟨c.before, next.before⟩⟩, next, h⟩

end Cursor

/-- The program that the tokens of a file make up, or the first fault in it. -/
def Program.parse (tokens : List Token) (file : String) : Except Diagnostic Program :=
  match (Cursor.ofTokens tokens file).program with
  | .ok read => .ok read.value
  | .error failure => .error failure.diagnostic

end TeachLang
