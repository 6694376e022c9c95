import Mathlib.Logic.Relation
import TeachLang.Syntax.ReadProgram

/-!
# Nodes

Fields, methods, statements and expressions are the **nodes** of a program. `Node.form` is what is
written for a node: its words and the nodes in it, in the order of the text. `ReadFrom` says that
tokens are those of some constituents, where every node, however deep, has the **hull** of its own
tokens as its span: it starts where the first of them starts and stops where the last one stops.

What the hulls of nodes are like then follows from what the spans of the tokens are like, whatever
the forms are. If the tokens stand one after another in the text, a node covers the nodes in it, and
those stand one after another (`ReadFrom.nested`).
-/

namespace TeachLang

/-- A field, method, statement or expression. -/
inductive Node where
  /-- a variable of the whole program -/
  | field (f : Field)
  /-- a function of the program -/
  | method (m : Method)
  /-- a statement -/
  | stmt (s : Stmt)
  /-- an expression -/
  | expr (e : Expr)

/-- What the text of a node is made of. -/
inductive Constituent where
  /-- a token of a kind -/
  | word (kind : Kind)
  /-- a token of a kind that may be left out -/
  | optional (kind : Kind)
  /-- a name -/
  | named (x : String)
  /-- a token that stands for a constant -/
  | constant (value : Literal)
  /-- a token that stands for an operator -/
  | operator (op : Operator)
  /-- a node -/
  | node (n : Node)

/-- Whether a token is one that a constituent asks for. -/
def Constituent.Admits (token : Token) : Constituent → Prop
  | word kind | optional kind => token.kind = kind
  | named x => token.kind = .identifier ∧ token.value = x
  | constant value => token.literal = .ok value
  | operator op => Operator.ofKind? token.kind = some op
  | node _ => False

namespace Node

/-- Where a node stands. -/
def span : Node → Span
  | field f => f.span
  | method m => m.span
  | stmt s => s.span
  | expr e => e.span

/-- The nodes right in a node, in the order of the text. -/
def children : Node → List Node
  | field f => f.value.toList.map expr
  | method m => m.body.map stmt
  | stmt (.expression e _) | stmt (.returns e _) => [expr e]
  | stmt (.declaration _ _ value _ _) => value.toList.map expr
  | stmt (.assignment target value _) => [expr target, expr value]
  | stmt (.conditional condition thenBody elseBody _) =>
    expr condition :: (thenBody.map stmt ++ elseBody.map stmt)
  | stmt (.forEach _ items body _) => expr items :: body.map stmt
  | stmt (.whileLoop condition body _) => expr condition :: body.map stmt
  | expr (.literal ..) | expr (.name ..) => []
  | expr (.group inner _ _) => [expr inner]
  | expr (.binary _ left right _ _) => [expr left, expr right]
  | expr (.member receiver _ _ _) => [expr receiver]
  | expr (.call _ arguments _ _) => arguments.map expr
  | expr (.methodCall receiver _ arguments _ _) => expr receiver :: arguments.map expr

/-- A node is in another if it is the other, or in a child of it. -/
def Inside (outer inner : Node) : Prop :=
  Relation.ReflTransGen (fun outer inner : Node => inner ∈ outer.children) outer inner

end Node

/-- The fields and then the methods of a program. -/
def Program.children (p : Program) : List Node := p.fields.map .field ++ p.methods.map .method

/-- A node is in a program if it is in one of its fields or methods. -/
def Program.Has (p : Program) (n : Node) : Prop := ∃ child ∈ p.children, child.Inside n

/-! ## Forms -/

namespace Constituent

/-- Nodes one after another. -/
def stmts (body : List Stmt) : List Constituent := body.map fun s => node (.stmt s)

/-- A colon and a type, if there is one. -/
def typeMark : Option String → List Constituent
  | none => []
  | some typeName => [word .colon, named typeName]

/-- The sign of assignment and a value, if there is one. -/
def firstValue : Option Expr → List Constituent
  | none => []
  | some e => [word .assignment, node (.expr e)]

/-- Further arguments, each behind a comma. -/
def moreArguments : List Expr → List Constituent
  | [] => []
  | e :: es => word .comma :: node (.expr e) :: moreArguments es

/-- The arguments of a call. -/
def arguments : List Expr → List Constituent
  | [] => [word .openParen, word .closeParen]
  | e :: es => word .openParen :: node (.expr e) :: (moreArguments es ++ [word .closeParen])

/-- Parameters, with commas between them. -/
def parameters : List (String × String) → List Constituent
  | [] => []
  | [(x, typeName)] => [named x, word .colon, named typeName]
  | (x, typeName) :: second :: others =>
    named x :: word .colon :: named typeName :: word .comma :: parameters (second :: others)

/-- The parameters of a method, with their parentheses. -/
def parameterList (list : List (String × String)) : List Constituent :=
  word .openParen :: (parameters list ++ [word .closeParen])

/-- The second body of a conditional. The word in front of it may be left out if it is empty. -/
def elseBody : List Stmt → List Constituent
  | [] => [optional .elseWord]
  | s :: body => word .elseWord :: stmts (s :: body)

/-- The node that a constituent is, if it is one. -/
def node? : Constituent → Option Node
  | node n => some n
  | _ => none

end Constituent

open Constituent in
/-- What is written for a node. -/
def Node.form : Node → List Constituent
  | field f => word .letWord :: named f.name :: word .colon :: named f.typeName ::
      (firstValue f.value ++ [word .semicolon])
  | method m => word .defWord :: named m.name :: (parameterList m.parameters ++
      (typeMark m.resultTypeName ++ word .doWord :: (stmts m.body ++ [word .endWord])))
  | stmt (.expression e _) => [node (expr e), word .semicolon]
  | stmt (.declaration x typeName value _ _) => word .letWord :: named x ::
      (typeMark typeName ++ (firstValue value ++ [word .semicolon]))
  | stmt (.assignment target value _) =>
    [node (expr target), word .assignment, node (expr value), word .semicolon]
  | stmt (.conditional condition thenBody otherwise _) =>
    word .ifWord :: node (expr condition) :: word .doWord ::
      (stmts thenBody ++ (elseBody otherwise ++ [word .endWord]))
  | stmt (.forEach x items body _) => word .forWord :: named x :: word .inWord ::
      node (expr items) :: word .doWord :: (stmts body ++ [word .endWord])
  | stmt (.whileLoop condition body _) => word .whileWord :: node (expr condition) ::
      word .doWord :: (stmts body ++ [word .endWord])
  | stmt (.returns value _) => [word .returnWord, node (expr value), word .semicolon]
  | expr (.literal value _ _) => [constant value]
  | expr (.group inner _ _) => [word .openParen, node (expr inner), word .closeParen]
  | expr (.binary op left right _ _) => [node (expr left), operator op, node (expr right)]
  | expr (.name x _ _) => [named x]
  | expr (.member receiver x _ _) => [node (expr receiver), word .dot, named x]
  | expr (.call x args _ _) => named x :: arguments args
  | expr (.methodCall receiver x args _ _) =>
    node (expr receiver) :: word .dot :: named x :: arguments args

@[simp] theorem filterMap_stmts (body : List Stmt) :
    (Constituent.stmts body).filterMap Constituent.node? = body.map Node.stmt := by
  simp [Constituent.stmts, List.filterMap_map, Function.comp_def, Constituent.node?]

@[simp] theorem filterMap_typeMark (typeName : Option String) :
    (Constituent.typeMark typeName).filterMap Constituent.node? = [] := by
  cases typeName <;> rfl

@[simp] theorem filterMap_firstValue (value : Option Expr) :
    (Constituent.firstValue value).filterMap Constituent.node? = value.toList.map Node.expr := by
  cases value <;> rfl

@[simp] theorem filterMap_moreArguments (es : List Expr) :
    (Constituent.moreArguments es).filterMap Constituent.node? = es.map Node.expr := by
  induction es with
  | nil => rfl
  | cons e es ih =>
    simpa [Constituent.moreArguments, Constituent.node?, List.filterMap_cons] using ih

@[simp] theorem filterMap_arguments (es : List Expr) :
    (Constituent.arguments es).filterMap Constituent.node? = es.map Node.expr := by
  cases es <;> simp [Constituent.arguments, Constituent.node?, List.filterMap_cons]

@[simp] theorem filterMap_parameters (parameters : List (String × String)) :
    (Constituent.parameters parameters).filterMap Constituent.node? = [] := by
  fun_induction Constituent.parameters parameters <;>
    simp_all [Constituent.node?, List.filterMap_cons]

@[simp] theorem filterMap_parameterList (list : List (String × String)) :
    (Constituent.parameterList list).filterMap Constituent.node? = [] := by
  simp [Constituent.parameterList, Constituent.node?, List.filterMap_cons]

@[simp] theorem filterMap_elseBody (body : List Stmt) :
    (Constituent.elseBody body).filterMap Constituent.node? = body.map Node.stmt := by
  cases body <;> simp [Constituent.elseBody, Constituent.node?, List.filterMap_cons]

/-- Whether a constituent is a token that cannot be left out. -/
def Constituent.isToken : Constituent → Bool
  | optional _ | node _ => false
  | _ => true

/-- Every node has a token of its own. -/
theorem Node.exists_isToken (n : Node) : ∃ c ∈ n.form, c.isToken = true := by
  fun_cases Node.form n <;> simp [Constituent.isToken]

/-- The nodes in the form of a node are its children. -/
theorem Node.filterMap_form (n : Node) : n.form.filterMap Constituent.node? = n.children := by
  fun_cases Node.form n <;> simp [Node.children, Constituent.node?, List.filterMap_cons]

/-! ## Hulls -/

/-- A span starts where the first of some tokens starts, and stops where the last one stops. -/
structure Hull (tokens : List Token) (s : Span) : Prop where
  /-- the first token -/
  start : ∃ first ∈ tokens.head?, s.start = first.span.start
  /-- the last token -/
  stop : ∃ last ∈ tokens.getLast?, s.stop = last.span.stop

/-- Tokens have one hull. -/
theorem Hull.unique {tokens : List Token} {s t : Span} (h : Hull tokens s) (ht : Hull tokens t) :
    s = t := by
  obtain ⟨⟨first, hfirst, hstart⟩, ⟨last, hlast, hstop⟩⟩ := h
  obtain ⟨⟨first', hfirst', hstart'⟩, ⟨last', hlast', hstop'⟩⟩ := ht
  obtain rfl := Option.some.inj (hfirst.symm.trans hfirst')
  obtain rfl := Option.some.inj (hlast.symm.trans hlast')
  exact congrArg₂ Span.mk (hstart.trans hstart'.symm) (hstop.trans hstop'.symm)

theorem Hull.singleton (token : Token) : Hull [token] token.span :=
  ⟨⟨token, rfl, rfl⟩, ⟨token, rfl, rfl⟩⟩

/-- Tokens are those of constituents, in the same order, and every node among these has the hull of
its own tokens as its span, and so have the nodes in it. -/
inductive ReadFrom : List Constituent → List Token → Prop where
  /-- nothing is left -/
  | nil : ReadFrom [] []
  /-- a constituent that is one token -/
  | token {c : Constituent} {token : Token} {cs : List Constituent} {tokens : List Token} :
    c.Admits token → ReadFrom cs tokens → ReadFrom (c :: cs) (token :: tokens)
  /-- a token was left out -/
  | skipped {kind : Kind} {cs : List Constituent} {tokens : List Token} :
    ReadFrom cs tokens → ReadFrom (.optional kind :: cs) tokens
  /-- a node with tokens of its own -/
  | node {n : Node} {own : List Token} {cs : List Constituent} {tokens : List Token} :
    ReadFrom n.form own → Hull own n.span → ReadFrom cs tokens →
    ReadFrom (.node n :: cs) (own ++ tokens)

variable {cs ds : List Constituent} {own tokens behind : List Token} {n inner : Node}

theorem ReadFrom.append (h : ReadFrom cs tokens) (hds : ReadFrom ds behind) :
    ReadFrom (cs ++ ds) (tokens ++ behind) := by
  induction h with
  | nil => exact hds
  | token hadmits _ ih => exact .token hadmits ih
  | skipped _ ih => exact .skipped ih
  | node hform hhull _ _ ih =>
    rw [List.append_assoc]
    exact .node hform hhull ih

/-- Constituents that can not all be left out have tokens. -/
theorem ReadFrom.ne_nil (h : ReadFrom cs tokens) (hcs : ∃ c ∈ cs, c.isToken = true) :
    tokens ≠ [] := by
  induction h with
  | nil => simp at hcs
  | token => exact List.cons_ne_nil _ _
  | skipped _ ih =>
    refine ih ?_
    simpa [Constituent.isToken] using hcs
  | @node n own cs tokens hform hhull _ _ _ =>
    obtain ⟨first, hfirst, -⟩ := hhull.start
    intro hnil
    rw [(List.append_eq_nil_iff.mp hnil).1] at hfirst
    cases hfirst

/-- Some of the tokens are those of a node among the constituents. -/
theorem ReadFrom.exists_own (h : ReadFrom cs tokens) (hn : n ∈ cs.filterMap Constituent.node?) :
    ∃ own, own <:+: tokens ∧ ReadFrom n.form own ∧ Hull own n.span := by
  induction h with
  | nil => cases hn
  | @token c token cs tokens hadmits _ ih =>
    have hother : n ∈ cs.filterMap Constituent.node? := by
      cases c with
      | node m => exact hadmits.elim
      | _ => exact hn
    obtain ⟨own, hown, hread⟩ := ih hother
    exact ⟨own, hown.trans (List.suffix_cons token tokens).isInfix, hread⟩
  | skipped _ ih => exact ih hn
  | @node m own cs tokens hform hhull _ _ ih =>
    rcases List.mem_cons.mp hn with rfl | hother
    · exact ⟨own, (List.prefix_append own tokens).isInfix, hform, hhull⟩
    · obtain ⟨others, hothers, hread⟩ := ih hother
      exact ⟨others, hothers.trans (List.suffix_append own tokens).isInfix, hread⟩

/-- Some of the tokens of a node are those of any node in it. -/
theorem ReadFrom.exists_inside (hform : ReadFrom n.form own) (hhull : Hull own n.span)
    (h : n.Inside inner) : ∃ tokens, tokens <:+: own ∧ ReadFrom inner.form tokens ∧
      Hull tokens inner.span := by
  induction h with
  | refl => exact ⟨own, List.infix_refl own, hform, hhull⟩
  | tail _ hchild ih =>
    obtain ⟨tokens, htokens, hread, -⟩ := ih
    rw [← Node.filterMap_form] at hchild
    obtain ⟨deeper, hdeeper, hinner⟩ := hread.exists_own hchild
    exact ⟨deeper, hdeeper.trans htokens, hinner⟩

/-! ## Tokens one after another -/

/-- Tokens with increasing spans that do not overlap. -/
structure InOrder (tokens : List Token) : Prop where
  /-- each stops behind its start -/
  upright : ∀ token ∈ tokens, token.span.start.offset ≤ token.span.stop.offset
  /-- each stops before those behind it start -/
  apart : tokens.Pairwise fun a b => a.span.stop.offset ≤ b.span.start.offset

namespace Span

/-- A span lies in another. -/
def Covers (outer inner : Span) : Prop :=
  outer.start.offset ≤ inner.start.offset ∧ inner.stop.offset ≤ outer.stop.offset

/-- A span ends before another starts, or there. -/
def Before (a b : Span) : Prop := a.stop.offset ≤ b.start.offset

end Span

theorem InOrder.of_isInfix (h : InOrder tokens) (hown : own <:+: tokens) : InOrder own :=
  ⟨fun token htoken => h.upright token (hown.subset htoken), h.apart.sublist hown.sublist⟩

theorem InOrder.head_le (h : InOrder tokens) {first token : Token} (hfirst : first ∈ tokens.head?)
    (htoken : token ∈ tokens) : first.span.start.offset ≤ token.span.start.offset := by
  obtain ⟨others, rfl⟩ := List.head?_eq_some_iff.mp hfirst
  rcases List.mem_cons.mp htoken with rfl | hother
  · exact Nat.le_refl _
  · have hupright := h.upright first (List.mem_cons_self ..)
    have hapart := (List.pairwise_cons.mp h.apart).1 token hother
    omega

theorem InOrder.le_getLast (h : InOrder tokens) {last token : Token}
    (hlast : last ∈ tokens.getLast?) (htoken : token ∈ tokens) :
    token.span.stop.offset ≤ last.span.stop.offset := by
  obtain ⟨others, rfl⟩ := List.getLast?_eq_some_iff.mp hlast
  rcases List.mem_append.mp htoken with hother | hsame
  · have hupright := h.upright last (by simp)
    have hapart := (List.pairwise_append.mp h.apart).2.2 token hother last (by simp)
    omega
  · obtain rfl := List.mem_singleton.mp hsame
    exact Nat.le_refl _

/-- The hull of some tokens lies in that of all. -/
theorem Hull.covers {outer inner : Span} (h : Hull tokens outer) (hinner : Hull own inner)
    (hown : own <:+: tokens) (horder : InOrder tokens) : outer.Covers inner := by
  obtain ⟨⟨first, hfirst, hstart⟩, ⟨last, hlast, hstop⟩⟩ := h
  obtain ⟨⟨first', hfirst', hstart'⟩, ⟨last', hlast', hstop'⟩⟩ := hinner
  rw [Span.Covers, hstart, hstop, hstart', hstop']
  exact ⟨horder.head_le hfirst (hown.subset (List.mem_of_mem_head? hfirst')),
    horder.le_getLast hlast (hown.subset (List.mem_of_mem_getLast? hlast'))⟩

/-- The nodes among constituents stand one after another. -/
theorem ReadFrom.pairwise (h : ReadFrom cs tokens) (horder : InOrder tokens) :
    (cs.filterMap Constituent.node?).Pairwise fun a b => a.span.Before b.span := by
  induction h with
  | nil => exact .nil
  | @token c token cs tokens hadmits _ ih =>
    have hrest := ih (horder.of_isInfix (List.suffix_cons token tokens).isInfix)
    cases c with
    | node m => exact hadmits.elim
    | _ => exact hrest
  | skipped _ ih => exact ih horder
  | @node m own cs tokens hform hhull hrest _ ih =>
    refine .cons ?_ (ih (horder.of_isInfix (List.suffix_append own tokens).isInfix))
    intro other hother
    obtain ⟨others, hothers, -, ⟨first, hfirst, hstart⟩, -⟩ := hrest.exists_own hother
    obtain ⟨-, last, hlast, hstop⟩ := hhull
    rw [Span.Before, hstart, hstop]
    exact (List.pairwise_append.mp horder.apart).2.2 last (List.mem_of_mem_getLast? hlast) first
      (hothers.subset (List.mem_of_mem_head? hfirst))

/-- A node covers the nodes right in it, which stand one after another. -/
structure Node.Nested (n : Node) : Prop where
  /-- each lies in the node -/
  covers : ∀ child ∈ n.children, n.span.Covers child.span
  /-- each ends before the next starts -/
  apart : n.children.Pairwise fun a b => a.span.Before b.span

theorem ReadFrom.nested (h : ReadFrom n.form own) (hhull : Hull own n.span) (horder : InOrder own) :
    n.Nested := by
  refine ⟨?_, ?_⟩
  · intro child hchild
    rw [← Node.filterMap_form] at hchild
    obtain ⟨inner, hinner, -, hchildhull⟩ := h.exists_own hchild
    exact hhull.covers hchildhull hinner horder
  · rw [← Node.filterMap_form]
    exact h.pairwise horder

end TeachLang
