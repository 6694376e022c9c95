import TeachLang.Syntax

/-!
# Parts of programs

The expressions and statements of which a program is made. `Expr.parts` lists an expression with all
expressions in it, `Stmt.expressions` the expressions that stand in a statement, in the blocks of it
too, and `Stmt.statements` a statement with all statements in it. All lists are in the order of the
text.
-/

namespace TeachLang

/-! ## Expressions -/

namespace Expr

mutual

/-- An expression and all expressions in it. -/
def parts : Expr → List Expr
  | e@(literal ..) | e@(name ..) => [e]
  | e@(group inner _ _) => e :: inner.parts
  | e@(binary _ left right _ _) => e :: (left.parts ++ right.parts)
  | e@(member receiver _ _ _) => e :: receiver.parts
  | e@(call _ arguments _ _) => e :: allParts arguments
  | e@(methodCall receiver _ arguments _ _) => e :: (receiver.parts ++ allParts arguments)

/-- Expressions and all expressions in them. -/
def allParts : List Expr → List Expr
  | [] => []
  | e :: es => e.parts ++ allParts es

end

end Expr

/-! ## Statements -/

namespace Stmt

mutual

/-- The expressions in a statement. -/
def expressions : Stmt → List Expr
  | expression e _ => [e]
  | declaration _ _ value _ _ => value.toList
  | assignment target value _ => [target, value]
  | conditional condition thenBody elseBody _ =>
    condition :: (allExpressions thenBody ++ allExpressions elseBody)
  | forEach _ items body _ => items :: allExpressions body
  | whileLoop condition body _ => condition :: allExpressions body
  | returns value _ => [value]

/-- The expressions in statements. -/
def allExpressions : List Stmt → List Expr
  | [] => []
  | stmt :: stmts => stmt.expressions ++ allExpressions stmts

end

mutual

/-- A statement and all statements in it. -/
def statements : Stmt → List Stmt
  | s@(conditional _ thenBody elseBody _) =>
    s :: (allStatements thenBody ++ allStatements elseBody)
  | s@(forEach _ _ body _) | s@(whileLoop _ body _) => s :: allStatements body
  | s => [s]

/-- Statements and all statements in them. -/
def allStatements : List Stmt → List Stmt
  | [] => []
  | stmt :: stmts => stmt.statements ++ allStatements stmts

end

end Stmt

/-! ## Programs -/

namespace Program

/-- The expressions in a program. -/
def expressions (p : Program) : List Expr :=
  p.fields.flatMap (fun f => f.value.toList) ++
    p.methods.flatMap fun m => Stmt.allExpressions m.body

/-- The expressions in a program, and all expressions in them. -/
def parts (p : Program) : List Expr := p.expressions.flatMap Expr.parts

/-- The statements in a program, and all statements in them. -/
def statements (p : Program) : List Stmt := p.methods.flatMap fun m => Stmt.allStatements m.body

/-- The parts of first values are parts of the program. -/
theorem mem_parts_of_field {p : Program} {f : Field} {e part : Expr} (hf : f ∈ p.fields)
    (he : e ∈ f.value.toList) (hpart : part ∈ e.parts) : part ∈ p.parts :=
  List.mem_flatMap.mpr
    ⟨e, List.mem_append_left _ (List.mem_flatMap.mpr ⟨f, hf, he⟩), hpart⟩

/-- So are the parts of what its methods do. -/
theorem mem_parts_of_method {p : Program} {m : Method} {e part : Expr} (hm : m ∈ p.methods)
    (he : e ∈ Stmt.allExpressions m.body) (hpart : part ∈ e.parts) : part ∈ p.parts :=
  List.mem_flatMap.mpr
    ⟨e, List.mem_append_right _ (List.mem_flatMap.mpr ⟨m, hm, he⟩), hpart⟩

end Program

end TeachLang
