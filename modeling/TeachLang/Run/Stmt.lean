import TeachLang.Run.Expr

/-!
# Executing statements

`Stmt.execute` executes a statement and `Stmt.executeAll` a list of them, up to the first that
returns. The `Flow` says how it went on: to the next statement or out of the method.

Every block runs in a scope of its own, and so does every round of a loop. A `FOR` loop runs once
for each item that was there when it began. Only a `WHILE` loop may run forever; fuel bounds the
number of its rounds.
-/

namespace TeachLang

/-- How a run goes on after a statement. -/
inductive Flow where
  /-- with the next statement -/
  | next
  /-- out of the method, with a value -/
  | returned (value : Value)

/-- Goes on only if nothing was returned. -/
def Run.unlessReturned (first : Run Flow) (next : Run Flow) : Run Flow := fun m =>
  match first m with
  | .done .next m => next m
  | other => other

/-- Runs rounds of a loop while the condition holds, at most as many as there is fuel. -/
def Run.rounds (condition : Run Bool) (round : Run Flow) : Nat → Run Flow
  | 0 => .exhausted
  | fuel + 1 => fun m =>
    match condition m with
    | .done true m => (round.unlessReturned (rounds condition round fuel)) m
    | .done false m => .done .next m
    | .failed d m => .failed d m
    | .exhausted => .exhausted

/-- Runs a round of a loop for each item. -/
def Run.forItems (round : Value → Run Flow) : List Value → Run Flow
  | [] => Run.pure .next
  | item :: items => (round item).unlessReturned (forItems round items)

namespace Stmt

variable (host : Host) (caller : Caller) (fuel : Nat)

mutual

/-- Executes a statement. -/
def execute : Stmt → Run Flow
  | expression e _ => do
    let _ ← e.evaluate host caller
    return .next
  | declaration name _ value _ span => do
    let value ← value.elim (Run.pure .nil) (Expr.evaluate host caller)
    Run.change (·.declare name value span.start)
    return .next
  | assignment target value _ => do
    target.assign host caller value
    return .next
  | conditional condition thenBody elseBody _ => do
    if ← condition.evaluateTruth host caller then Run.inBlock (executeAll thenBody)
    else Run.inBlock (executeAll elseBody)
  | forEach name items body span => do
    let items ← items.evaluateItems host caller
    Run.forItems (fun item => Run.inBlock do
      Run.change (·.declare name item span.start)
      executeAll body) items
  | whileLoop condition body _ =>
    Run.rounds (condition.evaluateTruth host caller) (Run.inBlock (executeAll body)) fuel
  | returns value _ => do return .returned (← value.evaluate host caller)

/-- Executes statements in their order. -/
def executeAll : List Stmt → Run Flow
  | [] => Run.pure .next
  | stmt :: stmts => (execute stmt).unlessReturned (executeAll stmts)

end

end Stmt

end TeachLang
