import TeachLang.Syntax.ReadExpr

/-!
# Reading statements

A statement begins with a word of its own or is an expression. Blocks are read up to one of the
words that can close them, which is left in front of the cursor.
-/

namespace TeachLang.Cursor

/-- Reads a colon and the name of a type, if the colon is there. -/
def typeMark (c : Cursor) (message : String) :
    Except Failure (Read (c.remaining + 1) (Option String)) :=
  if c.kind = .colon then do
    let ⟨_, next, h⟩ ← c.expect .colon
    let ⟨typeName, next, h⟩ := (← next.expectName message).after h
    return .loose ⟨some typeName, next, h⟩
  else return .nothing none c

/-- Reads the sign of assignment and a value, if the sign is there. -/
def firstValue (c : Cursor) : Except Failure (Read (c.remaining + 1) (Option Expr)) :=
  if c.kind = .assignment then do
    let ⟨_, next, h⟩ ← c.expect .assignment
    let ⟨value, next, h⟩ := (← next.expr .default).after h
    return .loose ⟨some value, next, h⟩
  else return .nothing none c

/-- Reads the declaration of a variable. -/
def declaration (c : Cursor) : Except Failure (Read c.remaining Stmt) := do
  let ⟨word, next, h⟩ ← c.expect .letWord
  let ⟨name, next, h⟩ :=
    (← next.expectName "expected identifier during variable declaration").after h
  let ⟨typeName, next, h⟩ := (← next.typeMark "expected a type name").orAfter h
  let ⟨value, next, h⟩ := (← next.firstValue).orAfter h
  let ⟨_, next, h⟩ := (← next.expect .semicolon).after h
  return ⟨.declaration name typeName value none ⟨word.span.start, next.before⟩, next, h⟩

/-- Reads a return from a method. -/
def returns (c : Cursor) : Except Failure (Read c.remaining Stmt) := do
  let ⟨word, next, h⟩ ← c.expect .returnWord
  let ⟨value, next, h⟩ := (← next.expr .default).after h
  let ⟨_, next, h⟩ := (← next.expect .semicolon).after h
  return ⟨.returns value ⟨word.span.start, next.before⟩, next, h⟩

/-- Reads an expression as a statement, or an assignment to it. -/
def expressionOrAssignment (c : Cursor) : Except Failure (Read c.remaining Stmt) := do
  let ⟨target, next, h⟩ ← c.expr .default
  let ⟨value, next, h⟩ := (← next.firstValue).orAfter h
  let ⟨_, next, h⟩ := (← next.expect .semicolon).after h
  let span : Span := ⟨c.position, next.before⟩
  match value with
  | some value => return ⟨.assignment target value span, next, h⟩
  | none => return ⟨.expression target span, next, h⟩

mutual

/-- Reads a statement. -/
def stmt (c : Cursor) : Except Failure (Read c.remaining Stmt) :=
  match c.kind with
  | .letWord => declaration c
  | .ifWord => conditional c
  | .forWord => forEach c
  | .whileWord => whileLoop c
  | .returnWord => returns c
  | _ => expressionOrAssignment c
termination_by 3 * c.remaining + 1

/-- Reads statements up to one of the closing words. -/
def block (closers : List Kind) (c : Cursor) :
    Except Failure (Read (c.remaining + 1) (List Stmt)) :=
  if c.kind ∈ closers then return .nothing [] c
  else if c.hasTokens then do
    let ⟨first, next, h⟩ ← stmt c
    let ⟨others, next, h⟩ := (← block closers next).orAfter h
    return .loose ⟨first :: others, next, h⟩
  else c.fail (c.unexpectedFor "expected END before the end of input")
termination_by 3 * c.remaining + 2

/-- Reads a conditional. -/
def conditional (c : Cursor) : Except Failure (Read c.remaining Stmt) := do
  let ⟨word, next, h⟩ ← c.expect .ifWord
  let ⟨condition, next, h⟩ := (← next.expr .default).after h
  let ⟨_, next, h⟩ := (← next.expect .doWord).after h
  let ⟨thenBody, next, h⟩ := (← block [.elseWord, .endWord] next).orAfter h
  let ⟨elseBody, next, h⟩ := (← elseBlock next).orAfter h
  let ⟨_, next, h⟩ := (← next.expect .endWord).after h
  let span : Span := ⟨word.span.start, next.before⟩
  return ⟨.conditional condition thenBody elseBody span, next, h⟩
termination_by 3 * c.remaining

/-- Reads the second body of a conditional, if there is one. -/
def elseBlock (c : Cursor) : Except Failure (Read (c.remaining + 1) (List Stmt)) :=
  if c.kind = .elseWord then do
    let ⟨_, next, h⟩ ← c.expect .elseWord
    let ⟨body, next, h⟩ := (← block [.endWord] next).orAfter h
    return .loose ⟨body, next, h⟩
  else return .nothing [] c
termination_by 3 * c.remaining

/-- Reads a loop over items. -/
def forEach (c : Cursor) : Except Failure (Read c.remaining Stmt) := do
  let ⟨word, next, h⟩ ← c.expect .forWord
  let ⟨name, next, h⟩ := (← next.expectName "expected a loop variable").after h
  let ⟨_, next, h⟩ := (← next.expect .inWord).after h
  let ⟨items, next, h⟩ := (← next.expr .default).after h
  let ⟨_, next, h⟩ := (← next.expect .doWord).after h
  let ⟨body, next, h⟩ := (← block [.endWord] next).orAfter h
  let ⟨_, next, h⟩ := (← next.expect .endWord).after h
  return ⟨.forEach name items body ⟨word.span.start, next.before⟩, next, h⟩
termination_by 3 * c.remaining

/-- Reads a loop under a condition. -/
def whileLoop (c : Cursor) : Except Failure (Read c.remaining Stmt) := do
  let ⟨word, next, h⟩ ← c.expect .whileWord
  let ⟨condition, next, h⟩ := (← next.expr .default).after h
  let ⟨_, next, h⟩ := (← next.expect .doWord).after h
  let ⟨body, next, h⟩ := (← block [.endWord] next).orAfter h
  let ⟨_, next, h⟩ := (← next.expect .endWord).after h
  return ⟨.whileLoop condition body ⟨word.span.start, next.before⟩, next, h⟩
termination_by 3 * c.remaining

end

end TeachLang.Cursor
