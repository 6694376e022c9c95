import Mathlib.Logic.Relation
import TeachLang.Proofs.Soundness

/-!
# Points of runs

A run is made of smaller runs, down to the evaluation of single names. A **point** is one of these:
a piece of work, the machine on which it starts, the fuel that it has, and the types that the slots
of the program give to the variables of the machine. `Leads` says which points a run comes to from
another, so that the points of a run are those that its start leads to.

`Discipline.holds_of_points` is what the discipline says of all of them: at every point every
variable has a value that conforms to its type, and whatever is evaluated there conforms to the type
in its slot.
-/

namespace TeachLang

/-- A piece of work. -/
inductive Task where
  /-- evaluating an expression -/
  | evaluate (e : Expr)
  /-- evaluating expressions from left to right -/
  | evaluateAll (es : List Expr)
  /-- calling a function -/
  | call (name : String) (arguments : List Value) (position : Position)
  /-- executing a statement -/
  | execute (stmt : Stmt)
  /-- executing statements in their order -/
  | executeAll (stmts : List Stmt)
  /-- the rounds of a loop that are left, before its condition is evaluated -/
  | rounds (condition : Expr) (body : List Stmt) (left : Nat)
  /-- the rounds of a loop for the items that are left -/
  | items (name : String) (items : List Value) (body : List Stmt) (position : Position)
  /-- the rest of a program from its fields on -/
  | fields (fields : List Field) (methods : List Method) (position : Position)
  /-- the rest of a program from its methods on -/
  | methods (methods : List Method) (position : Position)

/-- A point of a run. -/
structure Point where
  /-- how deep calls may be nested from here, and how many rounds a loop may have -/
  fuel : Nat
  /-- what is to be done -/
  task : Task
  /-- the declared types of all variables -/
  types : Scopes Ty Callable
  /-- the machine before it is done -/
  machine : Machine

/-- A run comes from one point to another. Where there is something to be done in between, it has
been done. -/
inductive Leads (host : Host) : Point → Point → Prop where
  /-- to what is in parentheses -/
  | group {fuel inner ty span t m} :
    Leads host ⟨fuel, .evaluate (.group inner ty span), t, m⟩ ⟨fuel, .evaluate inner, t, m⟩
  /-- to a left operand -/
  | left {fuel operator left right ty span t m} :
    Leads host ⟨fuel, .evaluate (.binary operator left right ty span), t, m⟩
      ⟨fuel, .evaluate left, t, m⟩
  /-- to a right operand, which `AND` and `OR` may leave out -/
  | right {fuel operator left right ty span t m value mid} :
    Run.evaluate host fuel left m = .done value mid →
    (operator = .and → value.truth span.start = .ok true) →
    (operator = .or → value.truth span.start = .ok false) →
    Leads host ⟨fuel, .evaluate (.binary operator left right ty span), t, m⟩
      ⟨fuel, .evaluate right, t, mid⟩
  /-- to the receiver of a field -/
  | receiver {fuel receiver n binding span t m} :
    Leads host ⟨fuel, .evaluate (.member receiver n binding span), t, m⟩
      ⟨fuel, .evaluate receiver, t, m⟩
  /-- to the arguments of a call -/
  | arguments {fuel n arguments callee span t m} :
    Leads host ⟨fuel, .evaluate (.call n arguments callee span), t, m⟩
      ⟨fuel, .evaluateAll arguments, t, m⟩
  /-- to the call itself -/
  | called {fuel n arguments callee span t m values mid} :
    Expr.evaluateAll host (Run.call host fuel) arguments m = .done values mid →
    Leads host ⟨fuel, .evaluate (.call n arguments callee span), t, m⟩
      ⟨fuel, .call n values span.start, t, mid⟩
  /-- to the receiver of a method -/
  | methodReceiver {fuel receiver n arguments callee span t m} :
    Leads host ⟨fuel, .evaluate (.methodCall receiver n arguments callee span), t, m⟩
      ⟨fuel, .evaluate receiver, t, m⟩
  /-- to the arguments of a method -/
  | methodArguments {fuel receiver n arguments callee span t m value mid} :
    Run.evaluate host fuel receiver m = .done value mid →
    Leads host ⟨fuel, .evaluate (.methodCall receiver n arguments callee span), t, m⟩
      ⟨fuel, .evaluateAll arguments, t, mid⟩
  /-- to the first of some expressions -/
  | first {fuel e es t m} :
    Leads host ⟨fuel, .evaluateAll (e :: es), t, m⟩ ⟨fuel, .evaluate e, t, m⟩
  /-- to the others -/
  | others {fuel e es t m value mid} :
    Run.evaluate host fuel e m = .done value mid →
    Leads host ⟨fuel, .evaluateAll (e :: es), t, m⟩ ⟨fuel, .evaluateAll es, t, mid⟩
  /-- to the body of a method, behind the declaration of its parameters -/
  | body {fuel n arguments position t m method scope f inner} :
    m.lookupFunction n arguments.length position = .ok (.method method scope) →
    method.callee = some f →
    Run.declareParameters method.span.start method.parameters arguments (m.enter scope) =
      .done () inner →
    Leads host ⟨fuel + 1, .call n arguments position, t, m⟩
      ⟨fuel, .executeAll method.body, (t.child scope).extend t.fresh (method.frame f), inner⟩
  /-- to an expression that is a statement -/
  | expression {fuel e span t m} :
    Leads host ⟨fuel, .execute (.expression e span), t, m⟩ ⟨fuel, .evaluate e, t, m⟩
  /-- to the first value of a variable -/
  | initial {fuel n typeName e binding span t m} :
    Leads host ⟨fuel, .execute (.declaration n typeName (some e) binding span), t, m⟩
      ⟨fuel, .evaluate e, t, m⟩
  /-- to the value that is assigned -/
  | assigned {fuel target e span t m} :
    Leads host ⟨fuel, .execute (.assignment target e span), t, m⟩ ⟨fuel, .evaluate e, t, m⟩
  /-- to the receiver of an assignment to a field of what is no place -/
  | temporary {fuel receiver n binding inner e span t m value mid} :
    receiver.place? = none → Run.evaluate host fuel e m = .done value mid →
    Leads host ⟨fuel, .execute (.assignment (.member receiver n binding inner) e span), t, m⟩
      ⟨fuel, .evaluate receiver, t, mid⟩
  /-- to a condition -/
  | condition {fuel condition thenBody elseBody span t m} :
    Leads host ⟨fuel, .execute (.conditional condition thenBody elseBody span), t, m⟩
      ⟨fuel, .evaluate condition, t, m⟩
  /-- to the block for a condition that holds -/
  | thenBody {fuel condition thenBody elseBody span t m mid} :
    condition.evaluateTruth host (Run.call host fuel) m = .done true mid →
    Leads host ⟨fuel, .execute (.conditional condition thenBody elseBody span), t, m⟩
      ⟨fuel, .executeAll thenBody, t.child mid.scope, mid.enter mid.scope⟩
  /-- to the block for a condition that does not hold -/
  | elseBody {fuel condition thenBody elseBody span t m mid} :
    condition.evaluateTruth host (Run.call host fuel) m = .done false mid →
    Leads host ⟨fuel, .execute (.conditional condition thenBody elseBody span), t, m⟩
      ⟨fuel, .executeAll elseBody, t.child mid.scope, mid.enter mid.scope⟩
  /-- to what a loop runs over -/
  | iterated {fuel n items body span t m} :
    Leads host ⟨fuel, .execute (.forEach n items body span), t, m⟩ ⟨fuel, .evaluate items, t, m⟩
  /-- to the rounds for all items -/
  | items {fuel n items body span t m values mid} :
    items.evaluateItems host (Run.call host fuel) m = .done values mid →
    Leads host ⟨fuel, .execute (.forEach n items body span), t, m⟩
      ⟨fuel, .items n values body span.start, t, mid⟩
  /-- to the block for an item, behind the declaration of the item -/
  | item {fuel n value values body position t m inner} :
    (m.enter m.scope).declare n value position = .ok inner →
    Leads host ⟨fuel, .items n (value :: values) body position, t, m⟩
      ⟨fuel, .executeAll body, (t.child m.scope).extend t.fresh [(n, .integer)], inner⟩
  /-- to the next item -/
  | nextItem {fuel n value values body position t m mid} :
    Run.inBlock (do
      Run.change (·.declare n value position)
      Stmt.executeAll host (Run.call host fuel) fuel body) m = .done .next mid →
    Leads host ⟨fuel, .items n (value :: values) body position, t, m⟩
      ⟨fuel, .items n values body position, t, mid⟩
  /-- to the rounds of a loop -/
  | whileLoop {fuel condition body span t m} :
    Leads host ⟨fuel, .execute (.whileLoop condition body span), t, m⟩
      ⟨fuel, .rounds condition body fuel, t, m⟩
  /-- to the condition of a round -/
  | roundCondition {fuel condition body left t m} :
    Leads host ⟨fuel, .rounds condition body (left + 1), t, m⟩ ⟨fuel, .evaluate condition, t, m⟩
  /-- to the block of a round -/
  | roundBody {fuel condition body left t m mid} :
    condition.evaluateTruth host (Run.call host fuel) m = .done true mid →
    Leads host ⟨fuel, .rounds condition body (left + 1), t, m⟩
      ⟨fuel, .executeAll body, t.child mid.scope, mid.enter mid.scope⟩
  /-- to the next round -/
  | nextRound {fuel condition body left t m mid last} :
    condition.evaluateTruth host (Run.call host fuel) m = .done true mid →
    Run.inBlock (Stmt.executeAll host (Run.call host fuel) fuel body) mid = .done .next last →
    Leads host ⟨fuel, .rounds condition body (left + 1), t, m⟩
      ⟨fuel, .rounds condition body left, t, last⟩
  /-- to what is returned -/
  | returned {fuel e span t m} :
    Leads host ⟨fuel, .execute (.returns e span), t, m⟩ ⟨fuel, .evaluate e, t, m⟩
  /-- to the first of some statements -/
  | statement {fuel stmt stmts t m} :
    Leads host ⟨fuel, .executeAll (stmt :: stmts), t, m⟩ ⟨fuel, .execute stmt, t, m⟩
  /-- to the others, with what the first declares by its slot -/
  | statements {fuel stmt stmts t m mid} :
    stmt.execute host (Run.call host fuel) fuel m = .done .next mid →
    Leads host ⟨fuel, .executeAll (stmt :: stmts), t, m⟩
      ⟨fuel, .executeAll stmts, t.extend m.scope stmt.declared, mid⟩
  /-- to the first value of a field -/
  | fieldValue {fuel f fields methods position t m e} :
    f.value = some e →
    Leads host ⟨fuel, .fields (f :: fields) methods position, t, m⟩ ⟨fuel, .evaluate e, t, m⟩
  /-- to the other fields, with the variable in the slot of the first -/
  | field {fuel f fields methods position t m v value mid last} :
    f.binding = some v →
    f.value.elim (Run.pure .nil) (Run.evaluate host fuel) m = .done value mid →
    mid.declareInRoot f.name value f.span.start = .ok last →
    Leads host ⟨fuel, .fields (f :: fields) methods position, t, m⟩
      ⟨fuel, .fields fields methods position, t.extend Scopes.root [(f.name, v.ty)], last⟩
  /-- from the fields to the methods -/
  | allFields {fuel methods position t m} :
    Leads host ⟨fuel, .fields [] methods position, t, m⟩ ⟨fuel, .methods methods position, t, m⟩
  /-- to the other methods -/
  | method {fuel method methods position t m last} :
    m.declareFunction method.name method.parameters.length (.method method Scopes.root)
      method.span.start = .ok last →
    Leads host ⟨fuel, .methods (method :: methods) position, t, m⟩
      ⟨fuel, .methods methods position,
        t.addFunction (method.name, method.parameters.length) (.method method Scopes.root), last⟩
  /-- from the methods to the entry -/
  | allMethods {fuel position t m} :
    Leads host ⟨fuel, .methods [] position, t, m⟩
      ⟨fuel, .call Program.entryName [] position, t, m⟩

/-- The points that a run comes to from one of its points. -/
abbrev Points (host : Host) : Point → Point → Prop := Relation.ReflTransGen (Leads host)

namespace Discipline

variable {D : Discipline}

/-- What is to be done at a point is typed there, and the machine stands among the types. -/
inductive Fits (D : Discipline) : Point → Prop where
  /-- an expression -/
  | evaluate {fuel e t m Δ id ty} :
    D.Stands Δ t id m → e.HasTy D.toRegime Δ (t.view id) ty → D.Fits ⟨fuel, .evaluate e, t, m⟩
  /-- some expressions -/
  | evaluateAll {fuel es t m Δ id tys} :
    D.Stands Δ t id m → Expr.HaveTys D.toRegime Δ (t.view id) es tys →
    D.Fits ⟨fuel, .evaluateAll es, t, m⟩
  /-- a call -/
  | call {fuel n arguments position t m Δ id f} :
    D.Stands Δ t id m → Δ.lookup (n, arguments.length) = some f →
    List.Forall₂ D.conforms f.parameters arguments →
    D.Fits ⟨fuel, .call n arguments position, t, m⟩
  /-- a statement -/
  | execute {fuel stmt t m Δ id result} :
    D.Stands Δ t id m → id ≠ Scopes.root → D.nameable result →
    Stmt.Typed D.toRegime Δ result (t.view id) stmt → D.Fits ⟨fuel, .execute stmt, t, m⟩
  /-- some statements -/
  | executeAll {fuel stmts t m Δ id result} :
    D.Stands Δ t id m → id ≠ Scopes.root → D.nameable result →
    Stmt.AllTyped D.toRegime Δ result (t.view id) stmts → D.Fits ⟨fuel, .executeAll stmts, t, m⟩
  /-- rounds of a loop -/
  | rounds {fuel condition body left t m Δ id ty result} :
    D.Stands Δ t id m → condition.HasTy D.toRegime Δ (t.view id) ty → D.Accepts .boolean ty →
    D.nameable result → Stmt.AllTyped D.toRegime Δ result ([] :: t.view id) body →
    D.Fits ⟨fuel, .rounds condition body left, t, m⟩
  /-- rounds for items -/
  | items {fuel n values body position t m Δ id result} :
    D.Stands Δ t id m → (∀ value ∈ values, D.conforms .integer value) → D.nameable result →
    Stmt.AllTyped D.toRegime Δ result ([(n, .integer)] :: t.view id) body →
    D.Fits ⟨fuel, .items n values body position, t, m⟩
  /-- fields and what comes behind them -/
  | fields {fuel fields methods position t m before host Δ globals} :
    D.Ready before host t m → Field.AllTyped D.toRegime before host fields globals →
    Method.AllTyped D.toRegime Δ globals before methods →
    (∃ f, Δ.lookup (Program.entryName, 0) = some f ∧ f.parameters = []) →
    D.Fits ⟨fuel, .fields fields methods position, t, m⟩
  /-- methods and what comes behind them -/
  | methods {fuel methods position t m before Δ globals} :
    D.Stands [] t Scopes.root m → D.Carries Δ globals before t →
    t.bindings Scopes.root = globals → Method.AllTyped D.toRegime Δ globals before methods →
    (∃ f, Δ.lookup (Program.entryName, 0) = some f ∧ f.parameters = []) →
    D.Fits ⟨fuel, .methods methods position, t, m⟩

variable {p q : Point}

theorem Stands.enter_self {Δ : Functions} {t : Scopes Ty Callable} {id : Nat} {m : Machine}
    (h : D.Stands Δ t id m) : D.Stands Δ (t.child m.scope) t.fresh (m.enter m.scope) := by
  rw [h.scope]
  exact h.enter h.live

/-- A block fits on the machine that goes into it. -/
theorem Stands.fits_block {Δ : Functions} {t : Scopes Ty Callable} {id fuel : Nat} {m : Machine}
    {result : Ty} {body : List Stmt} (h : D.Stands Δ t id m) (hresult : D.nameable result)
    (hbody : Stmt.AllTyped D.toRegime Δ result ([] :: t.view id) body) :
    D.Fits ⟨fuel, .executeAll body, t.child m.scope, m.enter m.scope⟩ := by
  have hinner := h.enter_self
  rw [h.scope] at hinner ⊢
  rw [← view_child h] at hbody
  exact .executeAll hinner (fresh_ne_root h.rooted) hresult hbody

section Leads

variable {Δ : Functions} {t : Scopes Ty Callable} {id fuel : Nat} {m : Machine} {ty result : Ty}

/-- From an expression that fits a run leads to what fits. -/
theorem Fits.of_evaluate (hD : D.Lawful) {e : Expr} (hm : D.Stands Δ t id m)
    (he : e.HasTy D.toRegime Δ (t.view id) ty)
    (h : Leads D.host ⟨fuel, .evaluate e, t, m⟩ q) : D.Fits q := by
  have hserves : D.Serves Δ (Run.call D.host fuel) := call_serves hD fuel
  cases h with
  | group =>
    cases he with
    | group hinner => exact .evaluate hm hinner
  | left =>
    cases he with
    | binary hleft _ _ _ => exact .evaluate hm hleft
  -- whether `AND` and `OR` come to their right operand does not matter to what it is
  | right hdone _ _ =>
    cases he with
    | binary hleft hright _ _ =>
      have hmid := (evaluate_keeps hD hserves hm hleft).of_done hdone
      exact .evaluate hmid.1 hright
  | receiver =>
    cases he with
    | member hreceiver _ _ => exact .evaluate hm hreceiver
  | arguments =>
    cases he with
    | call harguments _ _ => exact .evaluateAll hm harguments
  | called hdone =>
    cases he with
    | call harguments hlookup haccepts =>
      have hmid := (evaluateAll_keeps hD hserves hm harguments).of_done hdone
      rw [harguments.length_eq, hmid.2.length_eq] at hlookup
      exact .call hmid.1 hlookup (hD.accepts_all haccepts hmid.2)
  | methodReceiver =>
    cases he with
    | methodCall hreceiver _ _ _ _ => exact .evaluate hm hreceiver
  | methodArguments hdone =>
    cases he with
    | methodCall hreceiver _ harguments _ _ =>
      have hmid := (evaluate_keeps hD hserves hm hreceiver).of_done hdone
      exact .evaluateAll hmid.1 harguments

/-- From a statement that fits a run leads to what fits. -/
theorem Fits.of_execute (hD : D.Lawful) {stmt : Stmt} (hm : D.Stands Δ t id m)
    (hresult : D.nameable result) (hs : Stmt.Typed D.toRegime Δ result (t.view id) stmt)
    (h : Leads D.host ⟨fuel, .execute stmt, t, m⟩ q) : D.Fits q := by
  have hserves : D.Serves Δ (Run.call D.host fuel) := call_serves hD fuel
  cases h with
  | expression =>
    cases hs with
    | expression he => exact .evaluate hm he
  | initial =>
    cases hs with
    | declaration hstarts _ =>
      cases hstarts with
      | value he _ => exact .evaluate hm he
  | assigned =>
    cases hs with
    | assignment _ _ he _ => exact .evaluate hm he
  | temporary _ hdone =>
    cases hs with
    | assignment _ htarget he _ =>
      cases htarget with
      | member hreceiver _ _ =>
        have hmid := (evaluate_keeps hD hserves hm he).of_done hdone
        exact .evaluate hmid.1 hreceiver
  | condition =>
    cases hs with
    | conditional hcondition _ _ _ => exact .evaluate hm hcondition
  | thenBody hdone =>
    cases hs with
    | conditional hcondition haccepts hthen _ =>
      have hmid := (evaluateTruth_keeps hD hserves hm hcondition haccepts).of_done hdone
      exact hmid.1.fits_block hresult hthen
  | elseBody hdone =>
    cases hs with
    | conditional hcondition haccepts _ helse =>
      have hmid := (evaluateTruth_keeps hD hserves hm hcondition haccepts).of_done hdone
      exact hmid.1.fits_block hresult helse
  | iterated =>
    cases hs with
    | forEach hitems _ _ => exact .evaluate hm hitems
  | items hdone =>
    cases hs with
    | forEach hitems haccepts hbody =>
      have hmid := (evaluateItems_keeps hD hserves hm hitems haccepts).of_done hdone
      exact .items hmid.1 hmid.2 hresult hbody
  | whileLoop =>
    cases hs with
    | whileLoop hcondition haccepts hbody => exact .rounds hm hcondition haccepts hresult hbody
  | returned =>
    cases hs with
    | returns he _ => exact .evaluate hm he

/-- From rounds that fit a run leads to what fits. -/
theorem Fits.of_rounds (hD : D.Lawful) {condition : Expr} {body : List Stmt} {left : Nat}
    (hm : D.Stands Δ t id m) (hcondition : condition.HasTy D.toRegime Δ (t.view id) ty)
    (haccepts : D.Accepts .boolean ty) (hresult : D.nameable result)
    (hbody : Stmt.AllTyped D.toRegime Δ result ([] :: t.view id) body)
    (h : Leads D.host ⟨fuel, .rounds condition body left, t, m⟩ q) : D.Fits q := by
  have hserves : D.Serves Δ (Run.call D.host fuel) := call_serves hD fuel
  cases h with
  | roundCondition => exact .evaluate hm hcondition
  | roundBody hdone =>
    have hmid := (evaluateTruth_keeps hD hserves hm hcondition haccepts).of_done hdone
    exact hmid.1.fits_block hresult hbody
  | nextRound hdone hround =>
    have hmid := (evaluateTruth_keeps hD hserves hm hcondition haccepts).of_done hdone
    -- the scope of the round is released again, so the next one starts where this one did
    have hlast : D.Reaches Δ t id (D.Good result) .next _ := (block_keeps hmid.1 fun henter => by
      refine executeAll_ends hD hserves hresult fuel henter (fresh_ne_root hm.rooted) ?_
      rw [view_child hmid.1]
      exact hbody).of_done hround
    exact .rounds hlast.1 hcondition haccepts hresult hbody

/-- From rounds for items that fit a run leads to what fits. -/
theorem Fits.of_items (hD : D.Lawful) {n : String} {values : List Value} {body : List Stmt}
    {position : Position} (hm : D.Stands Δ t id m)
    (hvalues : ∀ value ∈ values, D.conforms .integer value) (hresult : D.nameable result)
    (hbody : Stmt.AllTyped D.toRegime Δ result ([(n, .integer)] :: t.view id) body)
    (h : Leads D.host ⟨fuel, .items n values body position, t, m⟩ q) : D.Fits q := by
  have hserves : D.Serves Δ (Run.call D.host fuel) := call_serves hD fuel
  cases h with
  | item hdeclare =>
    obtain ⟨inner, hinner, hstands⟩ := item_stands (n := n) hm (hvalues _ (List.mem_cons_self ..))
      position
    rw [hm.scope] at hdeclare ⊢
    obtain rfl := Except.ok.inj (hinner.symm.trans hdeclare)
    rw [← view_item hm] at hbody
    exact .executeAll hstands (fresh_ne_root hm.rooted) hresult hbody
  | nextItem hround =>
    have hitem := hvalues _ (List.mem_cons_self ..)
    have hlast : D.Reaches Δ t id (D.Good result) .next _ :=
      (round_keeps hm hitem fun inner hinner => by
        refine executeAll_ends hD hserves hresult fuel hinner (fresh_ne_root hm.rooted) ?_
        rw [view_item hm]
        exact hbody).of_done hround
    exact .items hlast.1 (fun v hv => hvalues v (List.mem_cons_of_mem _ hv)) hresult hbody

/-- From fields that fit a run leads to what fits. -/
theorem Fits.of_fields (hD : D.Lawful) {fields : List Field} {methods : List Method}
    {position : Position} {before : Functions} {host globals : Frame}
    (hm : D.Ready before host t m) (hfields : Field.AllTyped D.toRegime before host fields globals)
    (hmethods : Method.AllTyped D.toRegime Δ globals before methods)
    (hentry : ∃ f, Δ.lookup (Program.entryName, 0) = some f ∧ f.parameters = [])
    (h : Leads D.host ⟨fuel, .fields fields methods position, t, m⟩ q) : D.Fits q := by
  cases h with
  | fieldValue hvalue =>
    cases hfields with
    | cons _ hstarts _ _ =>
      rw [hvalue] at hstarts
      cases hstarts with
      | value he _ =>
        -- fields are typed in the root, where nothing but its own variables is seen
        rw [← hm.bindings, ← hm.stands.rooted.view_root] at he
        exact .evaluate hm.stands he
  | field hbinding hdone hdeclare =>
    cases hfields with
    | cons hbinding' hstarts hfresh hothers =>
      obtain rfl := Option.some.inj (hbinding'.symm.trans hbinding)
      have hmid := (hm.value_keeps hD hstarts fuel).of_done hdone
      obtain ⟨last, hlast, hready⟩ :=
        Ready.declare ⟨hmid.1, hm.carries, hm.bindings⟩ hfresh hmid.2 _
      obtain rfl := Except.ok.inj (hlast.symm.trans hdeclare)
      exact .fields hready hothers hmethods hentry
  | allFields =>
    cases hfields
    exact .methods ⟨hm.stands.scope, hm.stands.live, hm.stands.rooted, hm.stands.related,
      fun n k f hf => nomatch hf⟩ (hm.carries _ _) hm.bindings hmethods hentry

end Leads

/-- What fits leads only to what fits. -/
theorem Fits.of_leads (hD : D.Lawful) (hp : D.Fits p) (h : Leads D.host p q) : D.Fits q := by
  have hserves : ∀ {Δ : Functions} (fuel : Nat), D.Serves Δ (Run.call D.host fuel) :=
    fun fuel => call_serves hD fuel
  cases hp with
  | evaluate hm he => exact .of_evaluate hD hm he h
  | @evaluateAll fuel es t m Δ id tys hm hes =>
    cases h with
    | first =>
      cases hes with
      | cons hfirst _ => exact .evaluate hm hfirst
    | others hdone =>
      cases hes with
      | cons hfirst hothers =>
        have hmid := (evaluate_keeps hD (hserves fuel) hm hfirst).of_done hdone
        exact .evaluateAll hmid.1 hothers
  | @call fuel n arguments position t m Δ id f hm hlookup harguments =>
    cases h with
    | @body fuel _ _ _ _ _ method scope f' inner hfound hcallee hdone =>
      obtain ⟨callable, hcallable, himplements⟩ := hm.lookupFunction hlookup position
      obtain rfl := Except.ok.inj (hcallable.symm.trans hfound)
      obtain ⟨rfl, hcallee', hmethod⟩ := himplements
      -- the types that the body is given are those in the slot of the method
      obtain rfl := Option.some.inj (hcallee'.symm.trans hcallee)
      have hinner := (parameters_stand hm hmethod harguments).of_done hdone
      exact .executeAll hinner.1 (fresh_ne_root hm.rooted) hmethod.result hinner.2
  | execute hm _ hresult hs => exact .of_execute hD hm hresult hs h
  | @executeAll fuel stmts t m Δ id result hm hid hresult hs =>
    cases h with
    | statement =>
      cases hs with
      | cons hfirst _ => exact .execute hm hid hresult hfirst
    | statements hdone =>
      cases hs with
      | cons hfirst hothers =>
        have hmid := (execute_after hD (hserves fuel) hresult fuel hm hid hfirst).of_done hdone
        rw [← view_extend hm.rooted hm.live] at hothers
        rw [hm.scope]
        exact .executeAll hmid hid hresult hothers
  | rounds hm hcondition haccepts hresult hbody =>
    exact .of_rounds hD hm hcondition haccepts hresult hbody h
  | items hm hvalues hresult hbody => exact .of_items hD hm hvalues hresult hbody h
  | fields hm hfields hmethods hentry => exact .of_fields hD hm hfields hmethods hentry h
  | @methods fuel methods position t m before Δ globals hm hcarries hglobals hmethods hentry =>
    cases h with
    | method hdeclare =>
      cases hmethods with
      | cons hcallee hmethod hfresh hothers =>
        obtain ⟨last, hlast, hstands, hnext⟩ :=
          hcarries.declareMethod hm hcallee hmethod hfresh _
        obtain rfl := Except.ok.inj (hlast.symm.trans hdeclare)
        exact .methods hstands hnext ((Scopes.bindings_addFunction ..).trans hglobals) hothers
          hentry
    | allMethods =>
      -- all functions are there now, and the entry method has no parameters
      cases hmethods
      obtain ⟨f, hf, hparameters⟩ := hentry
      exact .call ⟨hm.scope, hm.live, hm.rooted, hm.related, hcarries.provides hglobals⟩ hf
        (hparameters ▸ .nil)

/-- What fits leads only to what fits, however far. -/
theorem Fits.of_points (hD : D.Lawful) (hp : D.Fits p) (h : Points D.host p q) : D.Fits q := by
  induction h with
  | refl => exact hp
  | tail _ hlast ih => exact ih.of_leads hD hlast

/-! ## What holds at a point -/

/-- At a point every variable has a value that conforms to its declared type. If an expression is to
be evaluated there, its value conforms to the type in its slot, with all variables conforming
still, and so do the arguments to the parameters in the slot of a call. -/
structure Holds (D : Discipline) (q : Point) : Prop where
  /-- variables, before anything is done -/
  related : Scopes.Related D.conforms q.types q.machine.scopes
  /-- the value of an expression, and variables after its evaluation -/
  value : ∀ {e value last}, q.task = .evaluate e →
    Run.evaluate D.host q.fuel e q.machine = .done value last →
    (∃ ty, e.ty? = some ty ∧ D.conforms ty value) ∧
      Scopes.Related D.conforms q.types last.scopes
  /-- the arguments of a function -/
  arguments : ∀ {n arguments callee span values last},
    q.task = .evaluate (.call n arguments callee span) →
    Expr.evaluateAll D.host (Run.call D.host q.fuel) arguments q.machine = .done values last →
    ∃ f, callee = some f ∧ List.Forall₂ D.conforms f.parameters values
  /-- the arguments of a method of a record -/
  methodArguments : ∀ {receiver n arguments callee span value mid values last},
    q.task = .evaluate (.methodCall receiver n arguments callee span) →
    Run.evaluate D.host q.fuel receiver q.machine = .done value mid →
    Expr.evaluateAll D.host (Run.call D.host q.fuel) arguments mid = .done values last →
    ∃ f, callee = some f ∧ List.Forall₂ D.conforms f.parameters values

theorem Fits.stands (h : D.Fits p) : ∃ Δ id, D.Stands Δ p.types id p.machine := by
  cases h with
  | fields hm => exact ⟨_, _, hm.stands⟩
  | _ => exact ⟨_, _, ‹_›⟩

/-- What fits holds. -/
theorem Fits.holds (hD : D.Lawful) (h : D.Fits q) : D.Holds q := by
  have hserves : ∀ {Δ : Functions} (fuel : Nat), D.Serves Δ (Run.call D.host fuel) :=
    fun fuel => call_serves hD fuel
  obtain ⟨_, _, hstands⟩ := h.stands
  refine ⟨hstands.related, ?_, ?_, ?_⟩
  · intro e value last htask hdone
    cases h with
    | evaluate hm he =>
      obtain rfl := Task.evaluate.inj htask
      have hlast := (evaluate_keeps hD (hserves _) hm he).of_done hdone
      exact ⟨⟨_, he.ty?, hlast.2⟩, hlast.1.related⟩
    | _ => cases htask
  · intro n arguments callee span values last htask hdone
    cases h with
    | evaluate hm he =>
      obtain rfl := Task.evaluate.inj htask
      cases he with
      | call harguments _ haccepts =>
        have hlast := (evaluateAll_keeps hD (hserves _) hm harguments).of_done hdone
        exact ⟨_, rfl, hD.accepts_all haccepts hlast.2⟩
    | _ => cases htask
  · intro receiver n arguments callee span value mid values last htask hreceived hdone
    cases h with
    | evaluate hm he =>
      obtain rfl := Task.evaluate.inj htask
      cases he with
      | methodCall hreceiver _ harguments _ haccepts =>
        have hmid := (evaluate_keeps hD (hserves _) hm hreceiver).of_done hreceived
        have hlast := (evaluateAll_keeps hD (hserves _) hmid.1 harguments).of_done hdone
        exact ⟨_, rfl, hD.accepts_all haccepts hlast.2⟩
    | _ => cases htask

end Discipline

/-- Where the run of a program starts, given the types of the variables that are there. -/
def Program.start (p : Program) (fuel : Nat) (types : Scopes Ty Callable) (m : Machine) : Point :=
  ⟨fuel, .fields p.fields p.methods p.span.stop, types, m⟩

/-- What the discipline asks for holds at every point of every run of a typed program. -/
theorem Discipline.holds_of_points {D : Discipline} (hD : D.Lawful) {p : Program}
    {before Δ : Functions} {host globals : Frame} {t : Scopes Ty Callable} {m : Machine}
    (hp : p.Typed D.toRegime before host Δ globals) (h : D.Ready before host t m) {fuel : Nat}
    {q : Point} (hq : Points D.host (p.start fuel t m) q) : D.Holds q := by
  obtain ⟨f, hf, hparameters, -⟩ := hp.entry
  have hstart : D.Fits (p.start fuel t m) := .fields h hp.fields hp.methods ⟨f, hf, hparameters⟩
  exact (hstart.of_points hD hq).holds hD

end TeachLang
