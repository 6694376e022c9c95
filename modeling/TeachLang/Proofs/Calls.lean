import TeachLang.Proofs.Parts
import TeachLang.Proofs.Resolution
import TeachLang.Proofs.Slots

/-!
# Calls in accepted programs

A function is known by its **key**, a name with a number of parameters, and `Expr.calls` and
`Stmt.allCalls` list the keys of the functions that are called in a tree.

A method is declared before its body is checked and after all methods in front of it, so what its
body calls is supplied by the host, stands before it, or is the method itself. In an accepted
program in which no method calls itself, calls therefore only go backward: it **descends**.
-/

namespace TeachLang

/-- The key of a method. -/
def Method.key (m : Method) : String × Nat := (m.name, m.parameters.length)

/-- The keys of functions. -/
abbrev Functions.keys (Δ : Functions) : List (String × Nat) := Δ.map Prod.fst

/-! ## Calls in trees -/

namespace Expr

/-- The key of the function that a call calls. -/
def callKey? : Expr → Option (String × Nat)
  | call n arguments _ _ => some (n, arguments.length)
  | _ => none

/-- The keys of the functions that are called in an expression. -/
def calls (e : Expr) : List (String × Nat) := e.parts.filterMap callKey?

/-- The keys of the functions that are called in expressions. -/
def allCalls (es : List Expr) : List (String × Nat) := (allParts es).filterMap callKey?

theorem calls_binary {operator : Operator} {left right : Expr} {ty : Option Ty} {span : Span} :
    (binary operator left right ty span).calls = left.calls ++ right.calls := by
  simp only [calls, parts, List.filterMap_cons, callKey?, List.filterMap_append]

theorem calls_call {n : String} {arguments : List Expr} {callee : Option Signature} {span : Span} :
    (call n arguments callee span).calls = (n, arguments.length) :: allCalls arguments := by
  simp only [calls, allCalls, parts, List.filterMap_cons, callKey?]

theorem calls_methodCall {receiver : Expr} {n : String} {arguments : List Expr}
    {callee : Option Signature} {span : Span} :
    (methodCall receiver n arguments callee span).calls = receiver.calls ++ allCalls arguments := by
  simp only [calls, allCalls, parts, List.filterMap_cons, callKey?, List.filterMap_append]

theorem allCalls_cons {e : Expr} {es : List Expr} :
    allCalls (e :: es) = e.calls ++ allCalls es := by
  simp only [calls, allCalls, allParts, List.filterMap_append]

theorem length_allCleared (es : List Expr) : (allCleared es).length = es.length := by
  induction es with
  | nil => rfl
  | cons e es ih => exact congrArg (· + 1) ih

mutual

/-- Clearing slots keeps the parts of an expression. -/
theorem parts_cleared : ∀ e : Expr, e.cleared.parts = e.parts.map cleared
  | literal .. | name .. => rfl
  | group inner _ _ | member inner _ _ _ => by
    simp only [cleared, parts, parts_cleared inner, List.map_cons]
  | binary _ left right _ _ => by
    simp only [cleared, parts, parts_cleared left, parts_cleared right, List.map_cons,
      List.map_append]
  | call _ arguments _ _ => by
    simp only [cleared, parts, allParts_allCleared arguments, List.map_cons]
  | methodCall receiver _ arguments _ _ => by
    simp only [cleared, parts, parts_cleared receiver, allParts_allCleared arguments,
      List.map_cons, List.map_append]

theorem allParts_allCleared : ∀ es : List Expr,
    allParts (allCleared es) = (allParts es).map cleared
  | [] => rfl
  | e :: es => by
    simp only [allCleared, allParts, parts_cleared e, allParts_allCleared es, List.map_append]

end

/-- What does not depend on slots is found in the same parts. -/
theorem filterMap_parts_cleared {T : Type} {f : Expr → Option T} (hf : ∀ e, f e.cleared = f e)
    (e : Expr) : e.cleared.parts.filterMap f = e.parts.filterMap f := by
  rw [parts_cleared, List.filterMap_map]
  exact congrArg (List.filterMap · e.parts) (funext hf)

/-- So the calls of an expression are those of the cleared one. -/
theorem calls_cleared (e : Expr) : e.cleared.calls = e.calls := by
  refine filterMap_parts_cleared (fun e => ?_) e
  cases e with
  | call n arguments => exact congrArg (fun k => some (n, k)) (length_allCleared arguments)
  | _ => rfl

end Expr

namespace Stmt

/-- Whether a statement is a `WHILE` loop. -/
def isWhile : Stmt → Bool
  | whileLoop .. => true
  | _ => false

/-- The keys of the functions that are called in statements. -/
def allCalls (stmts : List Stmt) : List (String × Nat) :=
  (allExpressions stmts).flatMap Expr.calls

@[simp] theorem isWhile_cleared (stmt : Stmt) : stmt.cleared.isWhile = stmt.isWhile := by
  cases stmt <;> rfl

mutual

theorem expressions_cleared : ∀ stmt : Stmt,
    stmt.cleared.expressions = stmt.expressions.map Expr.cleared
  | expression .. | assignment .. | returns .. => rfl
  | declaration _ _ value _ _ => by cases value <;> rfl
  | conditional _ thenBody elseBody _ => by
    simp only [cleared, expressions, allExpressions_allCleared thenBody,
      allExpressions_allCleared elseBody, List.map_cons, List.map_append]
  | forEach _ _ body _ | whileLoop _ body _ => by
    simp only [cleared, expressions, allExpressions_allCleared body, List.map_cons]

theorem allExpressions_allCleared : ∀ stmts : List Stmt,
    allExpressions (allCleared stmts) = (allExpressions stmts).map Expr.cleared
  | [] => rfl
  | stmt :: stmts => by
    simp only [allCleared, allExpressions, expressions_cleared stmt,
      allExpressions_allCleared stmts, List.map_append]

end

mutual

/-- And the statements in a statement are kept. -/
theorem statements_cleared : ∀ stmt : Stmt,
    stmt.cleared.statements = stmt.statements.map cleared
  | expression .. | declaration .. | assignment .. | returns .. => rfl
  | conditional _ thenBody elseBody _ => by
    simp only [cleared, statements, allStatements_allCleared thenBody,
      allStatements_allCleared elseBody, List.map_cons, List.map_append]
  | forEach _ _ body _ | whileLoop _ body _ => by
    simp only [cleared, statements, allStatements_allCleared body, List.map_cons]

theorem allStatements_allCleared : ∀ stmts : List Stmt,
    allStatements (allCleared stmts) = (allStatements stmts).map cleared
  | [] => rfl
  | stmt :: stmts => by
    simp only [allCleared, allStatements, statements_cleared stmt,
      allStatements_allCleared stmts, List.map_append]

end

theorem allCalls_allCleared (stmts : List Stmt) : allCalls (allCleared stmts) = allCalls stmts := by
  simp only [allCalls, allExpressions_allCleared, List.flatMap_map, Expr.calls_cleared]

end Stmt

/-! ## Calls in typed trees -/

variable {R : Regime} {Δ : Functions} {Γ : Context}

/-- What is found is among the keys. -/
theorem mem_keys_of_lookup {key : String × Nat} {f : Signature} (h : Δ.lookup key = some f) :
    key ∈ Δ.keys :=
  isSome_lookup_iff.mp (by rw [h]; rfl)

namespace Expr

mutual

/-- What is typed only calls functions that there are. -/
theorem HasTy.mem_keys : ∀ {e : Expr} {ty : Ty}, e.HasTy R Δ Γ ty → ∀ key ∈ e.calls, key ∈ Δ.keys
  | _, _, .literal | _, _, .name _ => nofun
  | _, _, .group h => h.mem_keys
  | _, _, .binary hl hr _ _ => by
    rw [calls_binary]
    exact List.forall_mem_append.mpr ⟨hl.mem_keys, hr.mem_keys⟩
  | _, _, .member h _ _ => h.mem_keys
  | _, _, .call hargs hlookup _ => by
    rw [calls_call]
    exact List.forall_mem_cons.mpr ⟨mem_keys_of_lookup hlookup, hargs.mem_keys⟩
  | _, _, .methodCall h _ hargs _ _ => by
    rw [calls_methodCall]
    exact List.forall_mem_append.mpr ⟨h.mem_keys, hargs.mem_keys⟩

theorem HaveTys.mem_keys : ∀ {es : List Expr} {tys : List Ty}, HaveTys R Δ Γ es tys →
    ∀ key ∈ allCalls es, key ∈ Δ.keys
  | _, _, .nil => nofun
  | _, _, .cons h hs => by
    rw [allCalls_cons]
    exact List.forall_mem_append.mpr ⟨h.mem_keys, hs.mem_keys⟩

end

/-- A first value calls what was checked before it. -/
theorem Starts.mem_keys {target : Ty} {value : Option Expr} (h : Starts R Δ Γ target value) :
    ∀ e ∈ value.toList, ∀ key ∈ e.calls, key ∈ Δ.keys := by
  cases h with
  | unset => nofun
  | value h _ => exact List.forall_mem_singleton.mpr h.mem_keys

end Expr

namespace Stmt

mutual

/-- What is typed only calls functions that there are. -/
theorem Typed.mem_keys {result : Ty} : ∀ {Γ : Context} {stmt : Stmt}, stmt.Typed R Δ result Γ →
    ∀ e ∈ stmt.expressions, ∀ key ∈ e.calls, key ∈ Δ.keys
  | _, _, .expression h | _, _, .returns h _ => List.forall_mem_singleton.mpr h.mem_keys
  | _, _, .declaration h _ => h.mem_keys
  | _, _, .assignment _ htarget hvalue _ =>
    List.forall_mem_cons.mpr ⟨htarget.mem_keys, List.forall_mem_singleton.mpr hvalue.mem_keys⟩
  | _, _, .conditional h _ hthen helse =>
    List.forall_mem_cons.mpr
      ⟨h.mem_keys, List.forall_mem_append.mpr ⟨hthen.mem_keys, helse.mem_keys⟩⟩
  | _, _, .forEach h _ hbody | _, _, .whileLoop h _ hbody =>
    List.forall_mem_cons.mpr ⟨h.mem_keys, hbody.mem_keys⟩

theorem AllTyped.mem_keys {result : Ty} : ∀ {Γ : Context} {stmts : List Stmt},
    AllTyped R Δ result Γ stmts → ∀ e ∈ allExpressions stmts, ∀ key ∈ e.calls, key ∈ Δ.keys
  | _, _, .nil => nofun
  | _, _, .cons h hs => List.forall_mem_append.mpr ⟨h.mem_keys, hs.mem_keys⟩

end

end Stmt

/-! ## The order of declarations -/

/-- Nothing is asked of a program, and it may come across every type. -/
def Regime.free : Regime := { Restriction.free with known := fun _ => True }

theorem Regime.free_closed : Regime.free.Closed :=
  ⟨fun _ => trivial, id, fun _ _ => trivial, fun _ _ => ⟨fun _ _ => trivial, trivial⟩⟩

theorem Field.AllTyped.mem_keys : ∀ {globals : Frame} {fields : List Field} {last : Frame},
    Field.AllTyped R Δ globals fields last →
      ∀ f ∈ fields, ∀ e ∈ f.value.toList, ∀ key ∈ e.calls, key ∈ Δ.keys
  | _, _, _, .nil => nofun
  | _, _, _, .cons _ h _ hs => List.forall_mem_cons.mpr ⟨h.mem_keys, hs.mem_keys⟩

namespace Method

/-- Each method has a key of its own, and only calls functions that are known or stand before it. -/
def Descend (known : List (String × Nat)) (methods : List Method) : Prop :=
  ∀ before m after, methods = before ++ m :: after →
    m.key ∉ known ++ before.map key ∧
      ∀ called ∈ Stmt.allCalls m.body, called ∈ known ++ before.map key

/-- In the end there are the functions that there were before and those of the methods. -/
theorem AllTyped.keys_eq {globals : Frame} : ∀ {before : Functions} {methods : List Method},
    AllTyped R Δ globals before methods → Δ.keys = before.keys ++ methods.map key
  | _, _, .nil => (List.append_nil _).symm
  | _, _, .cons _ _ _ hs => by
    rw [hs.keys_eq, Functions.keys, List.map_append, List.map_cons, List.map_nil, List.append_assoc]
    rfl

/-- No method has the key of one in front of it, or of what was there before the program. -/
theorem AllTyped.key_notMem {globals : Frame} : ∀ {known : Functions} {methods : List Method},
    AllTyped R Δ globals known methods → ∀ {before m after}, methods = before ++ m :: after →
      m.key ∉ known.keys ++ before.map key
  | _, _, .nil, before, _, _, h => by cases before <;> cases h
  | known, _, .cons _ _ hfresh hs, [], _, _, h => by
    obtain ⟨rfl, -⟩ := List.cons.inj h
    rw [List.map_nil, List.append_nil]
    intro hmem
    have hsome := isSome_lookup_iff.mpr hmem
    rw [key, hfresh] at hsome
    cases hsome
  | known, _, .cons _ _ _ hs, first :: before, _, _, h => by
    obtain ⟨rfl, hothers⟩ := List.cons.inj h
    have hrest := hs.key_notMem hothers
    rw [Functions.keys, List.map_append, List.append_assoc] at hrest
    exact hrest

/-- A method is checked before those behind it are declared. -/
theorem calls_of_checkEach {globals : Frame} : ∀ {methods : List Method} {c : Checker}
    {known : Functions} {u : Unit}, c.AtRoot .free known globals →
      (Program.checkEach check c methods).2.verdict = .ok u → ∀ {before m after},
        (Program.checkEach check c methods).2.tree = before ++ m :: after →
          ∀ called ∈ Stmt.allCalls m.body, called ∈ known.keys ++ (before.map key ++ [m.key])
  | [], c, known, u, hc, h, before, m, after, heq => by cases before <;> cases heq
  | first :: methods, c, known, u, hc, h, before, m, after, heq => by
    obtain ⟨hfirst, hrest, -, htrees⟩ := Program.checkEach_cons_ok h
    rw [htrees] at heq
    obtain ⟨f, -, -, hname, hparameters, hroot, htyped⟩ :=
      typed_of_check Regime.free_closed hc hfirst (first.check c).2.tree.obeys_free
    have hkey : (first.name, first.parameters.length) = (first.check c).2.tree.key := by
      rw [key, hname, hparameters]
    rw [hkey] at hroot htyped
    cases before with
    | nil =>
      obtain ⟨rfl, -⟩ := List.cons.inj heq
      -- the body is typed under the functions before the method and the method itself
      have hbody := (htyped []).body.mem_keys
      rw [List.append_nil, Functions.keys, List.map_append] at hbody
      exact List.forall_mem_flatMap.mpr hbody
    | cons _ before =>
      obtain ⟨rfl, hothers⟩ := List.cons.inj heq
      have hcalls := calls_of_checkEach hroot hrest hothers
      rw [Functions.keys, List.map_append, List.append_assoc] at hcalls
      exact hcalls

end Method

/-! ## Programs -/

/-- Calls go from the fields of a program to what is known, from each method to what is known or
stands before it, and from outside to the entry method. -/
structure Program.Descends (known : List (String × Nat)) (p : Program) : Prop where
  /-- the fields -/
  fields : ∀ f ∈ p.fields, ∀ e ∈ f.value.toList, ∀ key ∈ e.calls, key ∈ known
  /-- the methods -/
  methods : Method.Descend known p.methods
  /-- the entry method -/
  entry : (entryName, 0) ∈ known ++ p.methods.map Method.key

namespace Program

/-- Slots do not matter to whether methods call themselves. -/
theorem forall_notMem_of_cleared {p q : Program} (h : p.cleared = q.cleared)
    (hself : ∀ m ∈ q.methods, m.key ∉ Stmt.allCalls m.body) :
    ∀ m ∈ p.methods, m.key ∉ Stmt.allCalls m.body := by
  intro m hm
  have hmem : m.cleared ∈ p.cleared.methods := List.mem_map_of_mem hm
  rw [h] at hmem
  obtain ⟨m', hm', hsame⟩ := List.mem_map.mp hmem
  have hkey : m'.cleared.key = m.cleared.key := congrArg Method.key hsame
  change m'.key = m.key at hkey
  have hcalls := congrArg (fun m : Method => Stmt.allCalls m.body) hsame
  simp only [Method.cleared, Stmt.allCalls_allCleared] at hcalls
  rw [← hkey, ← hcalls]
  exact hself m' hm'

/-- Slots do not matter to whether there are loops. -/
theorem forall_not_isWhile_of_cleared {p q : Program} (h : p.cleared = q.cleared)
    (hstraight : ∀ stmt ∈ q.statements, ¬ stmt.isWhile) :
    ∀ stmt ∈ p.statements, ¬ stmt.isWhile := by
  have hmap : ∀ p : Program, p.cleared.statements = p.statements.map Stmt.cleared := fun p => by
    simp only [statements, cleared, List.flatMap_map, List.map_flatMap, Method.cleared,
      Stmt.allStatements_allCleared]
  intro stmt hstmt
  have hmem : stmt.cleared ∈ q.statements.map Stmt.cleared := by
    rw [← hmap, ← h, hmap]
    exact List.mem_map_of_mem hstmt
  obtain ⟨stmt', hstmt', hsame⟩ := List.mem_map.mp hmem
  rw [← Stmt.isWhile_cleared, ← hsame, Stmt.isWhile_cleared]
  exact hstraight stmt' hstmt'

/-- An accepted program in which no method calls itself descends. -/
theorem descends_of_check {known : Functions} {globals : Frame} {c : Checker} {p : Program}
    {u : Unit} (hc : c.AtRoot .free known globals) (h : (p.check c).2.verdict = .ok u)
    (hself : ∀ m ∈ p.methods, m.key ∉ Stmt.allCalls m.body) :
    (p.check c).2.tree.Descends known.keys := by
  have hself' := forall_notMem_of_cleared (p.cleared_check c) hself
  obtain ⟨Δ, last, htyped⟩ := typed_of_check Regime.free_closed hc h (p.check c).2.tree.obeys_free
  obtain ⟨middle, _, fields, methods, hfields, hmethods, -, heq⟩ := check_ok h
  rw [heq] at htyped hself' ⊢
  obtain ⟨_, -, hroot⟩ := Field.allTyped_of_checkEach Regime.free_closed hc
    (congrArg (·.2.verdict) hfields) fun f _ => Restriction.obeyedBy_free _
  rw [hfields] at hroot
  obtain ⟨f, hentry, -⟩ := htyped.entry
  refine ⟨htyped.fields.mem_keys, ?_, ?_⟩
  · intro before m after hsplit
    refine ⟨htyped.methods.key_notMem hsplit, fun called hcalled => ?_⟩
    have hmem := Method.calls_of_checkEach hroot (congrArg (·.2.verdict) hmethods)
      (by rw [hmethods]; exact hsplit) called hcalled
    rw [← List.append_assoc] at hmem
    rcases List.mem_append.mp hmem with hmem | hmem
    · exact hmem
    · obtain rfl := List.mem_singleton.mp hmem
      exact absurd hcalled (hself' m (hsplit ▸ List.mem_append_right _ (List.mem_cons_self ..)))
  · rw [← htyped.methods.keys_eq]
    exact mem_keys_of_lookup hentry

end Program

end TeachLang
