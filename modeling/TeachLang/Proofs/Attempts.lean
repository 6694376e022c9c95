import TeachLang.Syntax.ReadProgram

/-!
# Reading with a limit

An **attempt** at reading moves one cursor over its tokens, like any reading, but may be given up.
Nothing is shown here of how far it gets: a step over a token stays where it is at the end of the
text (`Cursor.advance`), a loop only has so many rounds, and what is nested can only be nested so
deep. The fuel of `Attempt.expr`, `Attempt.stmt` and `Attempt.program` bounds both.

So an attempt is what reading would be if nobody knew that it comes to an end. `Proofs/Progress`
shows that it does: with more fuel than there are tokens no attempt is given up, and all of them
come to what the readers of `Syntax` come to.
-/

namespace TeachLang

/-- The cursor behind the token in front of it, or still there at the end of the text. -/
def Cursor.advance (c : Cursor) : Cursor :=
  match c.ahead with
  | [] => c
  | token :: tokens => { c with before := token.span.stop, ahead := tokens }

/-- A piece of reading that may be given up. Whatever else it comes to, a value or a fault, it says
where the cursor stands then. -/
def Attempt (α : Type) : Type := Cursor → Option (Except Diagnostic α × Cursor)

namespace Attempt

variable {α β : Type}

/-- Nothing to read. -/
protected def pure (value : α) : Attempt α := fun c => some (.ok value, c)

/-- One attempt, and one that goes on behind what it read. -/
protected def bind (first : Attempt α) (next : α → Attempt β) : Attempt β := fun c =>
  match first c with
  | some (.ok value, c) => next value c
  | some (.error d, c) => some (.error d, c)
  | none => none

instance : Monad Attempt where
  pure := Attempt.pure
  bind := Attempt.bind

/-- It takes too long. -/
def giveUp : Attempt α := fun _ => none

/-- Looks at the cursor. -/
def look (f : Cursor → α) : Attempt α := fun c => some (.ok (f c), c)

/-- Stops here. -/
def fail (fault : Cursor → Diagnostic) : Attempt α := fun c => some (.error (fault c), c)

/-- Steps over the token in front of the cursor. -/
def advance : Attempt Token := fun c => some (.ok c.current, c.advance)

/-- Steps over a token of the given kind, or stops with the given fault. -/
def expectOr (kind : Kind) (fault : Cursor → Diagnostic) : Attempt Token := do
  if (← look Cursor.kind) = kind then advance else fail fault

/-- Steps over a token of the given kind. -/
def expect (kind : Kind) : Attempt Token := expectOr kind Cursor.unexpected

/-- Steps over a token of the given kind, with a word on what should stand there. -/
def expectFor (kind : Kind) (message : String) : Attempt Token :=
  expectOr kind (·.unexpectedFor message)

/-- Steps over a name. -/
def expectName (message : String) : Attempt String := do
  return (← expectFor .identifier message).value

/-! ## Expressions -/

/-- Steps over one token and takes it for a constant. -/
def literal : Attempt Expr := do
  let token ← advance
  match token.literal with
  | .ok value => return .literal value none token.span
  | .error d => fail fun _ => d

section

variable (expr : Power → Attempt Expr) (rounds : Nat)

/-- Reads further arguments, each behind a comma. -/
def moreArguments : Nat → Attempt (List Expr)
  | 0 => giveUp
  | rounds + 1 => do
    if (← look Cursor.kind) = .comma then
      let _ ← expect .comma
      let first ← expr .default
      let others ← moreArguments rounds
      return first :: others
    else return []

/-- Reads the arguments of a call, with their parentheses. -/
def arguments : Attempt (List Expr) := do
  let _ ← expect .openParen
  if (← look Cursor.kind) = .closeParen then
    let _ ← expect .closeParen
    return []
  else
    let first ← expr .default
    let others ← moreArguments expr rounds
    let _ ← expectFor .closeParen "expected `,` or `)` in argument list"
    return first :: others

/-- Reads a name, or a call behind it. -/
def nameOrCall : Attempt Expr := do
  let token ← advance
  if (← look Cursor.kind) = .openParen then
    let args ← arguments expr rounds
    return .call token.value args none ⟨token.span.start, ← look Cursor.before⟩
  else return .name token.value none token.span

/-- Reads an expression in parentheses. -/
def group : Attempt Expr := do
  let token ← advance
  let inner ← expr .default
  let _ ← expectFor .closeParen "expected `)` to close the group"
  return .group inner none ⟨token.span.start, ← look Cursor.before⟩

/-- Reads what can stand on the left of an operator. -/
def operand : Attempt Expr := do
  match ← look Cursor.kind with
  | .identifier => nameOrCall expr rounds
  | .openParen => group expr
  | kind => if kind.startsOperand then literal else fail (·.unexpectedFor "expected an expression")

/-- Reads a dot and the field or method behind it. -/
def member (receiver : Expr) : Attempt Expr := do
  let _ ← advance
  let token ← expectFor .identifier "expected a field or method name after `.`"
  if (← look Cursor.kind) = .openParen then
    let args ← arguments expr rounds
    return .methodCall receiver token.value args none
      ⟨receiver.span.start, ← look Cursor.before⟩
  else return .member receiver token.value none ⟨receiver.span.start, token.span.stop⟩

/-- Reads an operator and its right operand. -/
def binary (power : Power) (left : Expr) : Attempt Expr := do
  let token ← advance
  match Operator.ofKind? token.kind with
  | none => fail fun _ => ⟨.unexpectedToken token.value, token.span.start⟩
  | some operator =>
    let right ← expr power
    return .binary operator left right none ⟨left.span.start, right.span.stop⟩

/-- Goes on with operators for as long as they are tighter than the given power. -/
def operators (power : Power) : Nat → Expr → Attempt Expr
  | 0, _ => giveUp
  | rounds + 1, left => do
    let kind ← look Cursor.kind
    if power < kind.power then
      if kind = .dot then operators power rounds (← member expr rounds left)
      else if (Operator.ofKind? kind).isSome then
        operators power rounds (← binary expr kind.power left)
      else fail Cursor.unexpected
    else return left

end

/-- Reads an expression at a power. -/
def expr : Nat → Power → Attempt Expr
  | 0, _ => giveUp
  | fuel + 1, power => do operators (expr fuel) power (fuel + 1) (← operand (expr fuel) fuel)

/-! ## Statements -/

variable (fuel : Nat)

/-- Reads a colon and the name of a type, if the colon is there. -/
def typeMark (message : String) : Attempt (Option String) := do
  if (← look Cursor.kind) = .colon then
    let _ ← expect .colon
    return some (← expectName message)
  else return none

/-- Reads the sign of assignment and a value, if the sign is there. -/
def firstValue : Attempt (Option Expr) := do
  if (← look Cursor.kind) = .assignment then
    let _ ← expect .assignment
    return some (← expr fuel .default)
  else return none

/-- Reads the declaration of a variable. -/
def declaration : Attempt Stmt := do
  let word ← expect .letWord
  let name ← expectName "expected identifier during variable declaration"
  let typeName ← typeMark "expected a type name"
  let value ← firstValue fuel
  let _ ← expect .semicolon
  return .declaration name typeName value none ⟨word.span.start, ← look Cursor.before⟩

/-- Reads a return from a method. -/
def returns : Attempt Stmt := do
  let word ← expect .returnWord
  let value ← expr fuel .default
  let _ ← expect .semicolon
  return .returns value ⟨word.span.start, ← look Cursor.before⟩

/-- Reads an expression as a statement, or an assignment to it. -/
def expressionOrAssignment : Attempt Stmt := do
  let start ← look Cursor.position
  let target ← expr fuel .default
  let value ← firstValue fuel
  let _ ← expect .semicolon
  let span : Span := ⟨start, ← look Cursor.before⟩
  match value with
  | some value => return .assignment target value span
  | none => return .expression target span

section

variable (stmt : Attempt Stmt)

/-- Reads statements up to one of the closing words. -/
def block (closers : List Kind) : Nat → Attempt (List Stmt)
  | 0 => giveUp
  | rounds + 1 => do
    if (← look Cursor.kind) ∈ closers then return []
    else if (← look Cursor.hasTokens) = true then
      let first ← stmt
      let others ← block closers rounds
      return first :: others
    else fail (·.unexpectedFor "expected END before the end of input")

/-- Reads the second body of a conditional, if there is one. -/
def elseBlock : Attempt (List Stmt) := do
  if (← look Cursor.kind) = .elseWord then
    let _ ← expect .elseWord
    block stmt [.endWord] fuel
  else return []

/-- Reads a conditional. -/
def conditional : Attempt Stmt := do
  let word ← expect .ifWord
  let condition ← expr fuel .default
  let _ ← expect .doWord
  let thenBody ← block stmt [.elseWord, .endWord] fuel
  let elseBody ← elseBlock fuel stmt
  let _ ← expect .endWord
  return .conditional condition thenBody elseBody ⟨word.span.start, ← look Cursor.before⟩

/-- Reads a loop over items. -/
def forEach : Attempt Stmt := do
  let word ← expect .forWord
  let name ← expectName "expected a loop variable"
  let _ ← expect .inWord
  let items ← expr fuel .default
  let _ ← expect .doWord
  let body ← block stmt [.endWord] fuel
  let _ ← expect .endWord
  return .forEach name items body ⟨word.span.start, ← look Cursor.before⟩

/-- Reads a loop under a condition. -/
def whileLoop : Attempt Stmt := do
  let word ← expect .whileWord
  let condition ← expr fuel .default
  let _ ← expect .doWord
  let body ← block stmt [.endWord] fuel
  let _ ← expect .endWord
  return .whileLoop condition body ⟨word.span.start, ← look Cursor.before⟩

end

/-- Reads a statement. -/
def stmt : Nat → Attempt Stmt
  | 0 => giveUp
  | fuel + 1 => do
    match ← look Cursor.kind with
    | .letWord => declaration (fuel + 1)
    | .ifWord => conditional (fuel + 1) (stmt fuel)
    | .forWord => forEach (fuel + 1) (stmt fuel)
    | .whileWord => whileLoop (fuel + 1) (stmt fuel)
    | .returnWord => returns (fuel + 1)
    | _ => expressionOrAssignment (fuel + 1)

/-! ## Programs -/

/-- Reads a field. -/
def field : Attempt Field := do
  let word ← expect .letWord
  let name ← expectName "expected identifier during field declaration"
  let _ ← expectFor .colon "fields require an explicit type"
  let typeName ← expectName "expected a type name"
  let value ← firstValue fuel
  let _ ← expect .semicolon
  return ⟨name, typeName, value, none, ⟨word.span.start, ← look Cursor.before⟩⟩

/-- Reads parameters of a method, one at least. -/
def parameters : Nat → Attempt (List (String × String))
  | 0 => giveUp
  | rounds + 1 => do
    let name ← expectName "expected a parameter name"
    let _ ← expect .colon
    let typeName ← expectName "expected a type name"
    if (← look Cursor.kind) = .comma then
      let _ ← expect .comma
      let others ← parameters rounds
      return (name, typeName) :: others
    else return [(name, typeName)]

/-- Reads the parameters of a method, with their parentheses. -/
def parameterList : Attempt (List (String × String)) := do
  let _ ← expect .openParen
  if (← look Cursor.kind) = .closeParen then
    let _ ← expect .closeParen
    return []
  else
    let list ← parameters fuel
    let _ ← expectFor .closeParen "expected `,` or `)` in parameter list"
    return list

/-- Reads a method. -/
def method : Attempt Method := do
  let word ← expect .defWord
  let name ← expectName "expected identifier during method declaration"
  let parameters ← parameterList fuel
  let resultTypeName ← typeMark "expected a return type name"
  let _ ← expect .doWord
  let body ← block (stmt fuel) [.endWord] fuel
  let _ ← expect .endWord
  return ⟨name, parameters, resultTypeName, body, none, ⟨word.span.start, ← look Cursor.before⟩⟩

/-- Reads methods up to the end of the text. -/
def methods : Nat → Attempt (List Method)
  | 0 => giveUp
  | rounds + 1 => do
    if (← look Cursor.hasTokens) = true then
      match ← look Cursor.kind with
      | .defWord =>
        let first ← method fuel
        let others ← methods rounds
        return first :: others
      | .letWord => fail (·.unexpectedFor "fields must be declared before methods")
      | _ => fail (·.unexpectedFor "expected a field (LET) or a method (DEF)")
    else return []

/-- Reads fields for as long as there are any. -/
def fields : Nat → Attempt (List Field)
  | 0 => giveUp
  | rounds + 1 => do
    if (← look Cursor.kind) = .letWord then
      let first ← field fuel
      let others ← fields rounds
      return first :: others
    else return []

/-- Reads a whole program. -/
def program : Attempt Program := do
  let start ← look Cursor.before
  let fields ← fields fuel fuel
  let methods ← methods fuel fuel
  return ⟨fields, methods, ⟨start, ← look Cursor.before⟩⟩

end Attempt

end TeachLang
