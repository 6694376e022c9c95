import Mathlib.Logic.Relation
import TeachLang.Proofs.Kept

/-!
# Stages of runs

Whatever a machine is asked for is some **work**: a program, a call, an expression or statements,
and the smaller work that these are made of. A **stage** is work about to be done, the machine on
which it starts, and the fuel that it has. `Stage.Next` says to which stages a stage comes on its
way, so that those of a whole run are the ones that its start leads to. No tree has to be checked.

A machine is **reachable** if it stands at the start or at the end of a stage on a machine that is,
done or failed, or if the host made it. All reachable machines are sound: their scopes are nested in
a root that has all the functions, the program stands in one of them, and methods are defined in the
root. In particular every place by which a scope is known is that of a live scope.
-/

namespace TeachLang

/-! ## Work -/

/-- Something that a machine can be asked for, or a part of it. -/
inductive Work where
  /-- a program -/
  | program (p : Program)
  /-- the fields of a program -/
  | fields (fields : List Field)
  /-- the methods of a program -/
  | methods (methods : List Method)
  /-- a call -/
  | call (name : String) (arguments : List Value) (position : Position)
  /-- the declaration of parameters -/
  | parameters (position : Position) (parameters : List (String × String)) (values : List Value)
  /-- an expression -/
  | evaluate (e : Expr)
  /-- expressions from left to right -/
  | evaluateAll (es : List Expr)
  /-- a statement -/
  | execute (stmt : Stmt)
  /-- statements in their order -/
  | executeAll (stmts : List Stmt)
  /-- the rounds of a loop, as many as are left -/
  | rounds (condition : Expr) (body : List Stmt) (left : Nat)
  /-- the rounds of a loop for the items that are left -/
  | items (name : String) (items : List Value) (body : List Stmt) (position : Position)
  /-- a round of a loop for an item, inside its scope -/
  | round (name : String) (item : Value) (body : List Stmt) (position : Position)

namespace Work

/-- What work comes to. -/
def Result : Work → Type
  | program _ | call .. | evaluate _ => Value
  | fields _ | methods _ | parameters .. => Unit
  | evaluateAll _ => List Value
  | execute _ | executeAll _ | rounds .. | items .. | round .. => Flow

/-- How work is done. -/
def run (host : Host) (fuel : Nat) : (work : Work) → Run work.Result
  | program p => Run.program host fuel p
  | fields fs => Run.defineFields host fuel fs
  | methods ms => Run.defineMethods ms
  | call name arguments position => Run.call host fuel name arguments position
  | parameters position ps values => Run.declareParameters position ps values
  | evaluate e => Run.evaluate host fuel e
  | evaluateAll es => Expr.evaluateAll host (Run.call host fuel) es
  | execute stmt => stmt.execute host (Run.call host fuel) fuel
  | executeAll stmts => Run.execute host fuel stmts
  | rounds condition body left =>
    Run.rounds (condition.evaluateTruth host (Run.call host fuel))
      (Run.inBlock (Run.execute host fuel body)) left
  | items name values body position =>
    Run.forItems (fun item => Run.inBlock do
      Run.change (·.declare name item position)
      Run.execute host fuel body) values
  | round name item body position => do
    Run.change (·.declare name item position)
    Run.execute host fuel body

/-- The scope that may get variables from work, if the program stands in `scope`. -/
def declares (work : Work) (scope : Nat) : Option Nat :=
  match work with
  | program _ | fields _ => some Scopes.root
  | execute _ | executeAll _ | parameters .. | round .. => some scope
  | methods _ | call .. | evaluate _ | evaluateAll _ | rounds .. | items .. => none

/-- The scope that may get functions from work. -/
def defines : Work → Option Nat
  | program _ | methods _ => some Scopes.root
  | _ => none

theorem defines_cases (work : Work) :
    work.defines = none ∨ work.defines = some Scopes.root := by
  cases work <;> first | exact .inl rfl | exact .inr rfl

/-- All work keeps what was on the machine. -/
theorem stays (host : Host) (fuel : Nat) (work : Work) :
    (work.run host fuel).Stays work.declares work.defines := by
  have hcaller := Run.call_stays host fuel
  have hbody : ∀ stmts : List Stmt, (Run.execute host fuel stmts).Stays some none :=
    fun stmts => Stmt.executeAll_stays hcaller stmts
  have hround : ∀ name item position (body : List Stmt), (do
      Run.change (·.declare name item position)
      Run.execute host fuel body).Stays some none :=
    fun name item position body => (Run.declare_stays name item position).bind fun _ => hbody body
  cases work with
  | program p => exact Run.program_stays host fuel p
  | fields fields => exact Run.defineFields_stays host fuel fields
  | methods methods => exact Run.defineMethods_stays methods
  | call name arguments position => exact hcaller name arguments position
  | parameters position parameters values =>
    exact Run.declareParameters_stays position parameters values
  | evaluate e => exact e.evaluate_stays hcaller
  | evaluateAll es => exact Expr.evaluateAll_stays hcaller es
  | execute stmt => exact Stmt.execute_stays hcaller stmt
  | executeAll stmts => exact hbody stmts
  | rounds condition body left =>
    exact (condition.evaluateTruth_stays hcaller).rounds (hbody body).inBlock left
  | items name items body position =>
    exact Run.Stays.forItems (fun item => (hround name item position body).inBlock) items
  | round name item body position => exact hround name item position body

end Work

/-! ## Stages -/

/-- Work that is about to be done. -/
structure Stage where
  /-- how deep calls may be nested in it, and how many rounds a loop may have -/
  fuel : Nat
  /-- what is to be done -/
  work : Work
  /-- the machine before it is done -/
  machine : Machine

namespace Stage

/-- A stage comes to another on its way. Where there is something to be done in between, it has been
done. -/
inductive Next (host : Host) : Stage → Stage → Prop where
  /-- to the fields of a program -/
  | programFields {fuel p m} : Next host ⟨fuel, .program p, m⟩ ⟨fuel, .fields p.fields, m⟩
  /-- to its methods -/
  | programMethods {fuel p m mid} :
    Run.defineFields host fuel p.fields m = .done () mid →
    Next host ⟨fuel, .program p, m⟩ ⟨fuel, .methods p.methods, mid⟩
  /-- to the call of its entry -/
  | programEntry {fuel p m mid last} :
    Run.defineFields host fuel p.fields m = .done () mid →
    Run.defineMethods p.methods mid = .done () last →
    Next host ⟨fuel, .program p, m⟩ ⟨fuel, .call Program.entryName [] p.span.stop, last⟩
  /-- to the first value of a field -/
  | fieldValue {fuel f fields m e} :
    f.value = some e → Next host ⟨fuel, .fields (f :: fields), m⟩ ⟨fuel, .evaluate e, m⟩
  /-- to the other fields -/
  | otherFields {fuel f fields m value mid last} :
    f.value.elim (Run.pure .nil) (Run.evaluate host fuel) m = .done value mid →
    mid.declareInRoot f.name value f.span.start = .ok last →
    Next host ⟨fuel, .fields (f :: fields), m⟩ ⟨fuel, .fields fields, last⟩
  /-- to the other methods -/
  | otherMethods {fuel method methods m last} :
    m.declareFunction method.name method.parameters.length (.method method Scopes.root)
      method.span.start = .ok last →
    Next host ⟨fuel, .methods (method :: methods), m⟩ ⟨fuel, .methods methods, last⟩
  /-- to the parameters of the method that is called, inside its scope -/
  | called {fuel n arguments position m method scope} :
    m.lookupFunction n arguments.length position = .ok (.method method scope) →
    Next host ⟨fuel + 1, .call n arguments position, m⟩
      ⟨fuel, .parameters method.span.start method.parameters arguments, m.enter scope⟩
  /-- to its body -/
  | body {fuel n arguments position m method scope inner} :
    m.lookupFunction n arguments.length position = .ok (.method method scope) →
    Run.declareParameters method.span.start method.parameters arguments (m.enter scope) =
      .done () inner →
    Next host ⟨fuel + 1, .call n arguments position, m⟩ ⟨fuel, .executeAll method.body, inner⟩
  /-- to the other parameters -/
  | otherParameters {fuel position parameter parameters value values m last} :
    m.declare parameter.1 value position = .ok last →
    Next host ⟨fuel, .parameters position (parameter :: parameters) (value :: values), m⟩
      ⟨fuel, .parameters position parameters values, last⟩
  /-- to what is in parentheses -/
  | group {fuel inner ty span m} :
    Next host ⟨fuel, .evaluate (.group inner ty span), m⟩ ⟨fuel, .evaluate inner, m⟩
  /-- to a left operand -/
  | left {fuel operator left right ty span m} :
    Next host ⟨fuel, .evaluate (.binary operator left right ty span), m⟩ ⟨fuel, .evaluate left, m⟩
  /-- to a right operand, which `AND` and `OR` may leave out -/
  | right {fuel operator left right ty span m value mid} :
    Run.evaluate host fuel left m = .done value mid →
    (operator = .and → value.truth span.start = .ok true) →
    (operator = .or → value.truth span.start = .ok false) →
    Next host ⟨fuel, .evaluate (.binary operator left right ty span), m⟩
      ⟨fuel, .evaluate right, mid⟩
  /-- to the receiver of a field -/
  | receiver {fuel receiver n binding span m} :
    Next host ⟨fuel, .evaluate (.member receiver n binding span), m⟩ ⟨fuel, .evaluate receiver, m⟩
  /-- to the arguments of a call -/
  | arguments {fuel n arguments callee span m} :
    Next host ⟨fuel, .evaluate (.call n arguments callee span), m⟩
      ⟨fuel, .evaluateAll arguments, m⟩
  /-- to the call itself -/
  | call {fuel n arguments callee span m values mid} :
    Expr.evaluateAll host (Run.call host fuel) arguments m = .done values mid →
    Next host ⟨fuel, .evaluate (.call n arguments callee span), m⟩
      ⟨fuel, .call n values span.start, mid⟩
  /-- to the receiver of a method -/
  | methodReceiver {fuel receiver n arguments callee span m} :
    Next host ⟨fuel, .evaluate (.methodCall receiver n arguments callee span), m⟩
      ⟨fuel, .evaluate receiver, m⟩
  /-- to the arguments of a method -/
  | methodArguments {fuel receiver n arguments callee span m value mid} :
    Run.evaluate host fuel receiver m = .done value mid →
    Next host ⟨fuel, .evaluate (.methodCall receiver n arguments callee span), m⟩
      ⟨fuel, .evaluateAll arguments, mid⟩
  /-- to the first of some expressions -/
  | first {fuel e es m} : Next host ⟨fuel, .evaluateAll (e :: es), m⟩ ⟨fuel, .evaluate e, m⟩
  /-- to the others -/
  | others {fuel e es m value mid} :
    Run.evaluate host fuel e m = .done value mid →
    Next host ⟨fuel, .evaluateAll (e :: es), m⟩ ⟨fuel, .evaluateAll es, mid⟩
  /-- to an expression that is a statement -/
  | expression {fuel e span m} :
    Next host ⟨fuel, .execute (.expression e span), m⟩ ⟨fuel, .evaluate e, m⟩
  /-- to the first value of a variable -/
  | initial {fuel n typeName e binding span m} :
    Next host ⟨fuel, .execute (.declaration n typeName (some e) binding span), m⟩
      ⟨fuel, .evaluate e, m⟩
  /-- to the value that is assigned, if it can be -/
  | assigned {fuel target e span m} :
    target.isAccess → Next host ⟨fuel, .execute (.assignment target e span), m⟩
      ⟨fuel, .evaluate e, m⟩
  /-- to the receiver of an assignment to a field of what is no place -/
  | temporary {fuel receiver n binding inner e span m value mid} :
    receiver.place? = none → Run.evaluate host fuel e m = .done value mid →
    Next host ⟨fuel, .execute (.assignment (.member receiver n binding inner) e span), m⟩
      ⟨fuel, .evaluate receiver, mid⟩
  /-- to a condition -/
  | condition {fuel condition thenBody elseBody span m} :
    Next host ⟨fuel, .execute (.conditional condition thenBody elseBody span), m⟩
      ⟨fuel, .evaluate condition, m⟩
  /-- to the block for a condition that holds or does not, inside its scope -/
  | branch {fuel condition thenBody elseBody span m b mid} :
    condition.evaluateTruth host (Run.call host fuel) m = .done b mid →
    Next host ⟨fuel, .execute (.conditional condition thenBody elseBody span), m⟩
      ⟨fuel, .executeAll (if b then thenBody else elseBody), mid.enter mid.scope⟩
  /-- to what a loop runs over -/
  | iterated {fuel n items body span m} :
    Next host ⟨fuel, .execute (.forEach n items body span), m⟩ ⟨fuel, .evaluate items, m⟩
  /-- to the rounds for all items -/
  | items {fuel n items body span m values mid} :
    items.evaluateItems host (Run.call host fuel) m = .done values mid →
    Next host ⟨fuel, .execute (.forEach n items body span), m⟩
      ⟨fuel, .items n values body span.start, mid⟩
  /-- to the round for the first item, inside its scope -/
  | itemRound {fuel n value values body position m} :
    Next host ⟨fuel, .items n (value :: values) body position, m⟩
      ⟨fuel, .round n value body position, m.enter m.scope⟩
  /-- to the other items -/
  | otherItems {fuel n value values body position m mid} :
    Run.inBlock ((Work.round n value body position).run host fuel) m = .done .next mid →
    Next host ⟨fuel, .items n (value :: values) body position, m⟩
      ⟨fuel, .items n values body position, mid⟩
  /-- to the block of a round for an item -/
  | roundBody {fuel n value body position m mid} :
    m.declare n value position = .ok mid →
    Next host ⟨fuel, .round n value body position, m⟩ ⟨fuel, .executeAll body, mid⟩
  /-- to the rounds of a loop -/
  | whileLoop {fuel condition body span m} :
    Next host ⟨fuel, .execute (.whileLoop condition body span), m⟩
      ⟨fuel, .rounds condition body fuel, m⟩
  /-- to the condition of a round -/
  | roundCondition {fuel condition body left m} :
    Next host ⟨fuel, .rounds condition body (left + 1), m⟩ ⟨fuel, .evaluate condition, m⟩
  /-- to the block of a round, inside its scope -/
  | roundBlock {fuel condition body left m mid} :
    condition.evaluateTruth host (Run.call host fuel) m = .done true mid →
    Next host ⟨fuel, .rounds condition body (left + 1), m⟩
      ⟨fuel, .executeAll body, mid.enter mid.scope⟩
  /-- to the other rounds -/
  | otherRounds {fuel condition body left m mid last} :
    condition.evaluateTruth host (Run.call host fuel) m = .done true mid →
    Run.inBlock (Run.execute host fuel body) mid = .done .next last →
    Next host ⟨fuel, .rounds condition body (left + 1), m⟩ ⟨fuel, .rounds condition body left, last⟩
  /-- to what is returned -/
  | returned {fuel e span m} :
    Next host ⟨fuel, .execute (.returns e span), m⟩ ⟨fuel, .evaluate e, m⟩
  /-- to the first of some statements -/
  | statement {fuel stmt stmts m} :
    Next host ⟨fuel, .executeAll (stmt :: stmts), m⟩ ⟨fuel, .execute stmt, m⟩
  /-- to the others -/
  | statements {fuel stmt stmts m mid} :
    stmt.execute host (Run.call host fuel) fuel m = .done .next mid →
    Next host ⟨fuel, .executeAll (stmt :: stmts), m⟩ ⟨fuel, .executeAll stmts, mid⟩

/-- The stages that a run comes to from one of its stages. -/
abbrev Way (host : Host) : Stage → Stage → Prop := Relation.ReflTransGen (Next host)

/-- What holds wherever a stage ends, done or failed. -/
def Leaves (host : Host) (s : Stage) (P : Machine → Prop) : Prop :=
  (s.work.run host s.fuel).Leaves s.machine P

end Stage

/-! ## Sound machines -/

/-- Every place by which a scope of a machine is known is that of a live scope: the place where the
program stands, those of the scopes that others are nested in, and those in which methods were
defined. -/
structure Machine.InRange (m : Machine) : Prop where
  /-- where the program stands -/
  scope : m.scope < m.depth
  /-- what scopes are nested in -/
  parents : ∀ {id scope}, m.scopes.get? id = some scope → ∀ p ∈ scope.parent, p < m.depth
  /-- where methods were defined -/
  methods : ∀ {id scope}, m.scopes.get? id = some scope → ∀ f ∈ scope.functions,
    ∀ {method home}, f.2 = .method method home → home < m.depth

/-- The scopes of a machine are nested in a root that has all the functions, the program stands in
one of them, and all methods were defined in the root. -/
structure Machine.Sound (m : Machine) : Prop where
  /-- how scopes are nested -/
  rooted : m.scopes.Rooted
  /-- where the program stands -/
  live : m.scope < m.depth
  /-- where methods were defined -/
  methods : ∀ {id scope}, m.scopes.get? id = some scope → ∀ f ∈ scope.functions,
    ∀ {method home}, f.2 = .method method home → home = Scopes.root

namespace Machine

variable {m last : Machine} {declares defines : Option Nat}

theorem Sound.inRange (h : m.Sound) : m.InRange := by
  refine ⟨h.live, fun hscope p hp => ?_, fun hscope f hf method home hmethod => ?_⟩
  · have hid := Scopes.lt_of_get?_eq_some hscope
    rcases h.rooted.nested hscope with ⟨hnone, -⟩ | ⟨p', hsome, hlt, -⟩
    · rw [hnone] at hp
      cases hp
    · rw [hsome] at hp
      obtain rfl := Option.some.inj hp
      exact Nat.lt_trans hlt hid
  · rw [h.methods hscope f hf hmethod]
    exact h.rooted.live

theorem Sound.of_keeps (h : m.Sound) (hkeeps : m.Keeps declares defines last)
    (hdefines : defines = none ∨ defines = some Scopes.root) : last.Sound := by
  -- every scope is one that there was before, with no functions but methods of the root added
  have hold : ∀ {id new}, last.scopes.get? id = some new → ∃ old, m.scopes.get? id = some old ∧
      Scope.Kept (declares = some id) (defines = some id) old new := by
    intro id new hnew
    have hid : id < m.depth := hkeeps.depth ▸ Scopes.lt_of_get?_eq_some hnew
    obtain ⟨old, hold⟩ := Scopes.get?_eq_some_of_lt hid
    obtain ⟨new', hnew', hkept⟩ := hkeeps.scopes hold
    obtain rfl := Option.some.inj (hnew.symm.trans hnew')
    exact ⟨old, hold, hkept⟩
  refine ⟨h.rooted.of_parents hkeeps.depth fun {id new} hnew => ?_, ?_, ?_⟩
  · obtain ⟨old, hmem, hkept⟩ := hold hnew
    refine ⟨old, hmem, hkept.parent, fun hid => ?_⟩
    obtain ⟨added, hfunctions, hadded, -⟩ := hkept.functions
    have hnil : added = [] := by
      by_contra hne
      rcases hdefines with rfl | rfl
      · cases hadded hne
      · exact hid (Option.some.inj (hadded hne)).symm
    rw [hfunctions, hnil, List.append_nil]
  · rw [hkeeps.scope, hkeeps.depth]
    exact h.live
  · intro id new hnew f hf method home hmethod
    obtain ⟨old, hmem, hkept⟩ := hold hnew
    obtain ⟨added, hfunctions, -, hroot⟩ := hkept.functions
    rw [hfunctions] at hf
    rcases List.mem_append.mp hf with hf | hf
    · exact h.methods hmem f hf hmethod
    · obtain ⟨method', hmethod'⟩ := hroot f hf
      rw [hmethod'] at hmethod
      obtain ⟨-, rfl⟩ := Callable.method.inj hmethod
      rfl

theorem Sound.enter (h : m.Sound) {parent : Nat} (hparent : parent < m.depth) :
    (m.enter parent).Sound := by
  have hget := m.scopes.get?_child parent
  refine ⟨h.rooted.child hparent, ?_, ?_⟩
  · change m.scopes.fresh < (m.scopes.child parent).depth
    rw [Scopes.depth_child]
    exact Nat.lt_succ_self _
  · intro id scope hscope f hf method home hmethod
    have hscope : (m.scopes.child parent).get? id = some scope := hscope
    rw [hget] at hscope
    split at hscope
    · obtain rfl := Option.some.inj hscope
      cases hf
    · exact h.methods hscope f hf hmethod

theorem Sound.depth_pos (h : m.Sound) : 0 < m.depth := h.rooted.live

/-- Methods that can be called were defined in the root. -/
theorem Sound.home_eq (h : m.Sound) {name : String} {arity : Nat} {position : Position}
    {method : Method} {home : Nat}
    (hf : m.lookupFunction name arity position = .ok (.method method home)) :
    home = Scopes.root := by
  rw [lookupFunction, Scopes.lookupFunction, h.rooted.nearestFunction?_eq name arity h.live] at hf
  split at hf
  · next found hfound =>
    obtain rfl := Except.ok.inj hf
    obtain ⟨scope, hscope, hlookup⟩ := Option.bind_eq_some_iff.mp hfound
    rw [scope.get?_functionTable] at hlookup
    obtain ⟨before, behind, hfunctions, -⟩ := List.lookup_eq_some_iff.mp hlookup
    exact h.methods hscope ((name, arity), .method method home) (by simp [hfunctions]) rfl
  · cases hf

end Machine

namespace Stage

variable {host : Host}

/-- A sound machine is sound wherever work on it ends. -/
theorem leaves_sound {s : Stage} (h : s.machine.Sound) : s.Leaves host Machine.Sound :=
  (s.work.stays host s.fuel s.machine h.depth_pos).mono fun _ hkeeps =>
    h.of_keeps hkeeps s.work.defines_cases

/-- What is kept by work and holds inside a new scope too holds on the way of a stage, if it makes
machines sound. -/
theorem Next.preserves {holds : Machine → Prop} {s t : Stage} (hnext : s.Next host t)
    (hsound : ∀ {m}, holds m → m.Sound)
    (hkeeps : ∀ {m last declares}, holds m → m.Keeps declares s.work.defines last → holds last)
    (henter : ∀ {m parent}, holds m → parent < m.depth → holds (m.enter parent))
    (h : holds s.machine) : holds t.machine := by
  have hcaller := Run.call_stays host s.fuel
  have hdone : ∀ {α : Type} {r : Run α} {m last : Machine} {declares : Nat → Option Nat}
      {result : α}, holds m → r.Stays declares none → r m = .done result last → holds last :=
    fun h hr hd =>
      hkeeps h (((hr _ (hsound h).depth_pos).of_done hd).mono (fun _ hid => hid) nofun)
  cases hnext with
  -- what begins at once begins on the same machine
  | programFields | fieldValue | group | left | receiver | arguments | methodReceiver | first |
    expression | initial | assigned | condition | iterated | whileLoop | roundCondition |
    returned | statement => exact h
  -- what begins behind other work begins where that is done
  | programMethods hfields => exact hdone h (Run.defineFields_stays host _ _) hfields
  | programEntry hfields hmethods =>
    have hmid := hdone h (Run.defineFields_stays host _ _) hfields
    exact hkeeps hmid ((Run.defineMethods_stays _ _ (hsound hmid).depth_pos).of_done hmethods)
  | right hleft _ _ => exact hdone h (Expr.evaluate_stays hcaller _) hleft
  | call harguments => exact hdone h (Expr.evaluateAll_stays hcaller _) harguments
  | methodArguments hreceiver => exact hdone h (Expr.evaluate_stays hcaller _) hreceiver
  | others hfirst => exact hdone h (Expr.evaluate_stays hcaller _) hfirst
  | temporary _ hvalue => exact hdone h (Expr.evaluate_stays hcaller _) hvalue
  | items hitems => exact hdone h (Expr.evaluateItems_stays hcaller _) hitems
  | otherItems hround => exact hdone h (Work.stays host _ (.round ..)).inBlock hround
  | otherRounds hcondition hround =>
    have hmid := hdone h (Expr.evaluateTruth_stays hcaller _) hcondition
    exact hdone hmid (Stmt.executeAll_stays hcaller _).inBlock hround
  | statements hstmt => exact hdone h (Stmt.execute_stays hcaller _) hstmt
  -- what begins behind a definition begins on the machine that has it
  | otherFields hvalue hdeclare =>
    exact hkeeps (hdone h (Run.value_stays hcaller _) hvalue) (Machine.keeps_declareInRoot hdeclare)
  | otherMethods hdeclare => exact hkeeps h (Machine.keeps_declareMethod hdeclare)
  | otherParameters hdeclare => exact hkeeps h (Machine.keeps_declare hdeclare)
  | roundBody hdeclare => exact hkeeps h (Machine.keeps_declare hdeclare)
  -- what has a scope of its own begins inside it
  | called hmethod =>
    rw [(hsound h).home_eq hmethod]
    exact henter h (hsound h).depth_pos
  | body hmethod hparameters =>
    rw [(hsound h).home_eq hmethod] at hparameters
    exact hdone (henter h (hsound h).depth_pos) (Run.declareParameters_stays _ _ _) hparameters
  | branch hcondition =>
    have hmid := hdone h (Expr.evaluateTruth_stays hcaller _) hcondition
    exact henter hmid (hsound hmid).live
  | itemRound => exact henter h (hsound h).live
  | roundBlock hcondition =>
    have hmid := hdone h (Expr.evaluateTruth_stays hcaller _) hcondition
    exact henter hmid (hsound hmid).live

/-- A stage on a sound machine only comes to such. -/
theorem Next.sound {s t : Stage} (hnext : s.Next host t) (h : s.machine.Sound) :
    t.machine.Sound :=
  hnext.preserves id (fun hm hkeeps => hm.of_keeps hkeeps s.work.defines_cases)
    (fun hm => hm.enter) h

theorem Way.sound {s t : Stage} (h : s.Way host t) (hs : s.machine.Sound) : t.machine.Sound := by
  induction h with
  | refl => exact hs
  | tail _ hnext ih => exact hnext.sound ih

end Stage

/-! ## Reachable machines -/

/-- The machines that there can be, for a host that gives records their methods. -/
inductive Machine.Reachable (host : Host) : Machine → Prop where
  /-- a new one -/
  | start (printer : Printer) : Reachable host (.ofPrinter printer)
  /-- one with a variable that the host supplies -/
  | given {m last : Machine} {name : String} {value : Value} :
    m.Reachable host → m.defineVariable name value = .ok last → last.Reachable host
  /-- one with a function that the host supplies -/
  | native {m last : Machine} {name : String} {arity : Nat} {answer : Native} :
    m.Reachable host → m.defineFunction name arity answer = .ok last → last.Reachable host
  /-- one with a variable to which the host gave another value -/
  | assigned {m last : Machine} {name : String} {value : Value} {position : Position} :
    m.Reachable host → m.assign name value position = .ok last → last.Reachable host
  /-- one that forgot what was printed -/
  | cleared {m : Machine} : m.Reachable host → m.clearPrinted.Reachable host
  /-- one on the way of a run -/
  | stage {s t : Stage} : s.machine.Reachable host → s.Next host t → t.machine.Reachable host
  /-- one on which a run is done -/
  | done {m last : Machine} {fuel : Nat} {work : Work} {result : work.Result} :
    m.Reachable host → work.run host fuel m = .done result last → last.Reachable host
  /-- one on which a run failed -/
  | failed {m last : Machine} {fuel : Nat} {work : Work} {d : Diagnostic} :
    m.Reachable host → work.run host fuel m = .failed d last → last.Reachable host

namespace Machine

variable {host : Host} {m last : Machine}

theorem sound_ofPrinter (printer : Printer) : (ofPrinter printer).Sound := by
  refine ⟨Scopes.rooted_ofFunctions _, Nat.one_pos, fun {id scope} hscope f hf method home h => ?_⟩
  -- the only function of the only scope is no method
  cases id with
  | zero =>
    obtain rfl := Option.some.inj hscope
    obtain rfl := List.mem_singleton.mp hf
    cases h
  | succ id => cases hscope

theorem Sound.defineFunction (h : m.Sound) {name : String} {arity : Nat} {answer : Native}
    (hd : m.defineFunction name arity answer = .ok last) : last.Sound := by
  obtain ⟨scopes, scope, printer⟩ := m
  rw [Machine.defineFunction, declareFunction, changeScopes] at hd
  split at hd
  · next changed hchanged =>
    obtain rfl := Except.ok.inj hd
    obtain ⟨-, rfl⟩ := Scopes.eq_addFunction_of_defineFunction hchanged
    refine ⟨h.rooted.addFunction _ _, ?_, fun {id new} hnew f hf method home hmethod => ?_⟩
    · change scope < (scopes.addFunction _ _).depth
      rw [Scopes.depth_addFunction]
      exact h.live
    · have hnew : (scopes.addFunction (name, arity) (.native answer)).get? id = some new := hnew
      rw [Scopes.get?_addFunction] at hnew
      split at hnew
      · obtain ⟨old, hold, rfl⟩ := Option.map_eq_some_iff.mp hnew
        rw [Scope.functions_addFunction] at hf
        rcases List.mem_append.mp hf with hf | hf
        · exact h.methods hold f hf hmethod
        · obtain rfl := List.mem_singleton.mp hf
          cases hmethod
      · exact h.methods hnew f hf hmethod
  · cases hd

/-- Every machine that there can be is sound. -/
theorem Reachable.sound (h : m.Reachable host) : m.Sound := by
  induction h with
  | start printer => exact sound_ofPrinter printer
  | given _ hd ih => exact ih.of_keeps (keeps_declareInRoot hd) (.inl rfl)
  | native _ hd ih => exact ih.defineFunction hd
  | assigned _ hd ih => exact ih.of_keeps (keeps_assign hd) (.inl rfl)
  | cleared _ ih => exact ⟨ih.rooted, ih.live, ih.methods⟩
  | stage _ hnext ih => exact hnext.sound ih
  | @done m last fuel work result _ hrun ih =>
    exact Run.Ensures.of_done (Stage.leaves_sound (s := ⟨fuel, work, m⟩) ih) hrun
  | @failed m last fuel work d _ hrun ih =>
    exact Run.Ensures.of_failed (Stage.leaves_sound (s := ⟨fuel, work, m⟩) ih) hrun

/-- Whatever is done on a machine that there can be, and however it ends, the machine keeps what it
had, and on the whole way every place by which a scope is known is that of a live scope. -/
theorem Reachable.scope_discipline (h : m.Reachable host) (fuel : Nat) (work : Work) :
    (work.run host fuel).Leaves m (m.Keeps (work.declares m.scope) work.defines) ∧
      ∀ t, Stage.Way host ⟨fuel, work, m⟩ t → t.machine.InRange ∧ t.Leaves host InRange := by
  refine ⟨work.stays host fuel m h.sound.depth_pos, fun t hway => ?_⟩
  have ht := hway.sound h.sound
  exact ⟨ht.inRange, (Stage.leaves_sound ht).mono fun _ hlast => hlast.inRange⟩

/-- A loop with a block in which a division fails. -/
def dividing : Stmt :=
  .whileLoop (.literal (.boolean true) none default)
    [.declaration "x" none (some (.literal (.integer 0) none default)) none default,
      .conditional (.literal (.boolean true) none default)
        [.returns (.binary .divide (.literal (.integer 1) none default) (.name "x" none default)
          none default) default] [] default]
    default

theorem dividing_keeps : ∃ d last,
    (Work.execute dividing).run (fun _ value _ => .ok value) 2 (initial.enter Scopes.root) =
      .failed d last ∧ d.fault = .divisionByZero ∧
    (initial.enter Scopes.root).Keeps (some 1) none last ∧ last.InRange := by
  -- the block of a conditional stands in a scope of its own
  have hblock : (initial.enter Scopes.root).Reachable (fun _ value _ => .ok value) :=
    .stage (s := ⟨0, .execute (.conditional (.literal (.boolean true) none default) [] [] default),
      initial⟩) (.start .empty) (.branch rfl)
  obtain ⟨hkeeps, hway⟩ := hblock.scope_discipline 2 (.execute dividing)
  have hends : Run.Leaves ((Work.execute dividing).run (fun _ value _ => .ok value) 2)
      (initial.enter Scopes.root) InRange := (hway _ .refl).2
  exact ⟨_, _, rfl, rfl, hkeeps.of_failed rfl, hends.of_failed rfl⟩

end Machine

end TeachLang
