import TeachLang.Proofs.Calls
import TeachLang.Proofs.Fuel
import TeachLang.Proofs.Starvation

/-!
# Termination

An accepted program without `WHILE` in which no method calls itself terminates, whatever the host
supplies. The measure is the place of a method in the program: every call that is made on the way of
a call of a method reaches what the host supplies, or a method in front of that one.

`Stage.Confined` is the invariant: a stage only calls what is allowed with its fuel. It is kept from
stage to stage as long as a method, called with what is allowed, only calls what is allowed with
less fuel.
-/

namespace TeachLang

/-- What can be called on a machine, by key. -/
abbrev Callables := List ((String × Nat) × Callable)

/-! ## What machines offer -/

/-- A sound machine on which the root has some functions, and no others. -/
structure Machine.Offers (Φ : Callables) (m : Machine) : Prop extends m.Sound where
  /-- the functions -/
  functions : (m.scopes.get? Scopes.root).map Scope.functions = some Φ

namespace Machine.Offers

variable {Φ : Callables} {m last : Machine}

theorem functionIn? (h : m.Offers Φ) (n : String) (k : Nat) :
    m.scopes.functionIn? n k Scopes.root = Φ.lookup (n, k) := by
  obtain ⟨scope, hscope, hfunctions⟩ := Option.map_eq_some_iff.mp h.functions
  rw [Scopes.functionIn?_eq hscope, hfunctions]

/-- A call means what is offered under its key. -/
theorem lookupFunction_eq_ok (h : m.Offers Φ) {n : String} {k : Nat} {position : Position}
    {f : Callable} : m.lookupFunction n k position = .ok f ↔ Φ.lookup (n, k) = some f := by
  rw [lookupFunction, Scopes.lookupFunction, h.rooted.nearestFunction?_eq n k h.live, h.functionIn?]
  cases Φ.lookup (n, k) with
  | none => exact iff_of_false (fun hg => by cases hg) (Option.some_ne_none f).symm
  | some g =>
    exact ⟨fun hg => congrArg some (Except.ok.inj hg), fun hg => congrArg _ (Option.some.inj hg)⟩

theorem of_keeps {declares : Option Nat} (h : m.Offers Φ) (hkeeps : m.Keeps declares none last) :
    last.Offers Φ := by
  obtain ⟨old, hold, hfunctions⟩ := Option.map_eq_some_iff.mp h.functions
  obtain ⟨new, hnew, hkept⟩ := hkeeps.scopes hold
  obtain ⟨added, heq, hadded, -⟩ := hkept.functions
  have hnil : added = [] := by
    by_contra hne
    cases hadded hne
  refine ⟨h.toSound.of_keeps hkeeps (.inl rfl), ?_⟩
  rw [hnew, Option.map_some, heq, hnil, List.append_nil, hfunctions]

theorem enter (h : m.Offers Φ) {parent : Nat} (hparent : parent < m.depth) :
    (m.enter parent).Offers Φ := by
  refine ⟨h.toSound.enter hparent, ?_⟩
  change ((m.scopes.child parent).get? Scopes.root).map Scope.functions = some Φ
  rw [h.rooted.get?_child_root, h.functions]

/-- One more function is offered behind the others. -/
theorem declareFunction (h : m.Offers Φ) {n : String} {k : Nat} {f : Callable} {position : Position}
    (hd : m.declareFunction n k f position = .ok last) (hlast : last.Sound) :
    last.Offers (Φ ++ [((n, k), f)]) := by
  refine ⟨hlast, ?_⟩
  obtain ⟨scopes, scope, printer⟩ := m
  rw [Machine.declareFunction, changeScopes] at hd
  split at hd
  · next changed hchanged =>
    obtain rfl := Except.ok.inj hd
    obtain ⟨-, rfl⟩ := Scopes.eq_addFunction_of_defineFunction hchanged
    obtain ⟨root, hroot, rfl⟩ := Option.map_eq_some_iff.mp h.functions
    have hroot : scopes.get? Scopes.root = some root := hroot
    change ((scopes.addFunction (n, k) f).get? Scopes.root).map Scope.functions = _
    rw [Scopes.get?_addFunction, if_pos rfl, hroot, Option.map_some, Option.map_some,
      Scope.functions_addFunction]
  · cases hd

end Machine.Offers

/-! ## Confined work -/

/-- Statements without `WHILE` that only call what is allowed. -/
structure Stmt.Confined (allowed : String × Nat → Prop) (stmts : List Stmt) : Prop where
  /-- there are no loops but `FOR` -/
  straight : ∀ stmt ∈ allStatements stmts, ¬ stmt.isWhile
  /-- what is called -/
  calls : ∀ key ∈ allCalls stmts, allowed key

/-- Work on fields, or in a method, that has no `WHILE` and only calls what is allowed. -/
def Work.Confined (allowed : String × Nat → Prop) : Work → Prop
  | program _ | methods _ | rounds .. => False
  | fields fs => ∀ f ∈ fs, ∀ e ∈ f.value.toList, ∀ key ∈ e.calls, allowed key
  | call n arguments _ => allowed (n, arguments.length)
  | parameters .. => True
  | evaluate e => ∀ key ∈ e.calls, allowed key
  | evaluateAll es => ∀ key ∈ Expr.allCalls es, allowed key
  | execute stmt => Stmt.Confined allowed [stmt]
  | executeAll stmts => Stmt.Confined allowed stmts
  | items _ _ body _ | round _ _ body _ => Stmt.Confined allowed body

/-- A stage that offers some functions, on which work only calls what is allowed with its fuel. -/
structure Stage.Confined (Φ : Callables) (allowed : Nat → String × Nat → Prop) (s : Stage) :
    Prop where
  /-- the functions -/
  machine : s.machine.Offers Φ
  /-- the work -/
  work : s.work.Confined (allowed s.fuel)

/-- A method that is called with what is allowed only calls what is allowed with less fuel. -/
def Callables.Descend (Φ : Callables) (allowed : Nat → String × Nat → Prop) : Prop :=
  ∀ fuel key method home, allowed (fuel + 1) key → Φ.lookup key = some (.method method home) →
    Stmt.Confined (allowed fuel) method.body

namespace Stmt.Confined

variable {allowed : String × Nat → Prop}

/-- What stands in statements only calls what is allowed. -/
theorem mem {stmts : List Stmt} (h : Confined allowed stmts) {e : Expr}
    (he : e ∈ allExpressions stmts) : ∀ key ∈ e.calls, allowed key :=
  fun key hkey => h.calls key (List.mem_flatMap.mpr ⟨e, he, hkey⟩)

theorem of_subset {stmts inner : List Stmt} (h : Confined allowed stmts)
    (hstatements : allStatements inner ⊆ allStatements stmts)
    (hexpressions : allExpressions inner ⊆ allExpressions stmts) : Confined allowed inner := by
  refine ⟨fun stmt hstmt => h.straight stmt (hstatements hstmt), fun key hkey => ?_⟩
  obtain ⟨e, he, hkey⟩ := List.mem_flatMap.mp hkey
  exact h.mem (hexpressions he) key hkey

theorem first {stmt : Stmt} {stmts : List Stmt} (h : Confined allowed (stmt :: stmts)) :
    Confined allowed [stmt] :=
  h.of_subset (by simp [allStatements]) (by simp [allExpressions])

theorem others {stmt : Stmt} {stmts : List Stmt} (h : Confined allowed (stmt :: stmts)) :
    Confined allowed stmts :=
  h.of_subset (by simp [allStatements]) (by simp [allExpressions])

theorem branch {condition : Expr} {thenBody elseBody : List Stmt} {span : Span}
    (h : Confined allowed [.conditional condition thenBody elseBody span]) (b : Bool) :
    Confined allowed (if b then thenBody else elseBody) := by
  have hthen : Confined allowed thenBody :=
    h.of_subset (fun _ hs => by simp [allStatements, statements, hs])
      (fun _ he => by simp [allExpressions, expressions, he])
  have helse : Confined allowed elseBody :=
    h.of_subset (fun _ hs => by simp [allStatements, statements, hs])
      (fun _ he => by simp [allExpressions, expressions, he])
  cases b with
  | true => exact hthen
  | false => exact helse

theorem block {n : String} {items : Expr} {body : List Stmt} {span : Span}
    (h : Confined allowed [.forEach n items body span]) : Confined allowed body :=
  h.of_subset (fun _ hs => by simp [allStatements, statements, hs])
    (fun _ he => by simp [allExpressions, expressions, he])

end Stmt.Confined

namespace Stage

variable {host : Host} {Φ : Callables} {allowed : Nat → String × Nat → Prop}

/-- What is offered stays as it is unless functions are defined. -/
theorem Next.offers {s t : Stage} (hnext : s.Next host t) (h : s.machine.Offers Φ)
    (hdefines : s.work.defines = none) : t.machine.Offers Φ :=
  hnext.preserves (·.toSound) (fun hm hkeeps => hm.of_keeps (hdefines ▸ hkeeps))
    (fun hm => hm.enter) h

/-- A confined stage only comes to such. -/
theorem Next.confined (hΦ : Φ.Descend allowed) {s t : Stage} (hnext : s.Next host t)
    (h : s.Confined Φ allowed) : t.Confined Φ allowed := by
  obtain ⟨hm, hw⟩ := h
  have hdefines : s.work.defines = none := by
    revert hw
    cases s.work <;> first | exact fun _ => rfl | exact False.elim
  refine ⟨hnext.offers hm hdefines, ?_⟩
  cases hnext with
  -- programs, methods and the rounds of `WHILE` are not confined
  | programFields | programMethods | programEntry | otherMethods | roundCondition | roundBlock |
    otherRounds => exact hw.elim
  | fieldValue hvalue => exact hw _ (List.mem_cons_self ..) _ (by simp [hvalue])
  | otherFields => exact fun f hf => hw f (List.mem_cons_of_mem _ hf)
  -- a method gets on with less fuel than its call had
  | called => trivial
  | body hmethod => exact hΦ _ _ _ _ hw (hm.lookupFunction_eq_ok.mp hmethod)
  | otherParameters => trivial
  | group | receiver => exact hw
  | left => exact fun key hkey => hw key (Expr.calls_binary ▸ List.mem_append_left _ hkey)
  | right => exact fun key hkey => hw key (Expr.calls_binary ▸ List.mem_append_right _ hkey)
  | arguments => exact fun key hkey => hw key (Expr.calls_call ▸ List.mem_cons_of_mem _ hkey)
  | call harguments =>
    have hkey := hw _ (Expr.calls_call ▸ List.mem_cons_self ..)
    rw [← Expr.length_of_evaluateAll harguments] at hkey
    exact hkey
  | methodReceiver =>
    exact fun key hkey => hw key (Expr.calls_methodCall ▸ List.mem_append_left _ hkey)
  | methodArguments =>
    exact fun key hkey => hw key (Expr.calls_methodCall ▸ List.mem_append_right _ hkey)
  | first => exact fun key hkey => hw key (Expr.allCalls_cons ▸ List.mem_append_left _ hkey)
  | others => exact fun key hkey => hw key (Expr.allCalls_cons ▸ List.mem_append_right _ hkey)
  -- what stands in a statement is evaluated, and blocks are executed
  | expression | initial | assigned | condition | iterated | returned =>
    exact Stmt.Confined.mem hw (by simp [Stmt.allExpressions, Stmt.expressions])
  | temporary => exact Stmt.Confined.mem hw (e := .member ..) (List.mem_cons_self ..)
  | branch => exact Stmt.Confined.branch hw _
  | items => exact Stmt.Confined.block hw
  | itemRound | otherItems | roundBody => exact hw
  | whileLoop => exact absurd rfl (hw.straight _ (List.mem_cons_self ..))
  | statement => exact Stmt.Confined.first hw
  | statements => exact Stmt.Confined.others hw

theorem Way.confined (hΦ : Φ.Descend allowed) {s t : Stage} (hway : s.Way host t)
    (h : s.Confined Φ allowed) : t.Confined Φ allowed := by
  induction hway with
  | refl => exact h
  | tail _ hnext ih => exact hnext.confined hΦ ih

/-- Confined work ends, if nothing is allowed without fuel. -/
theorem ne_exhausted_of_confined (hΦ : Φ.Descend allowed) (hallowed : ∀ key, ¬ allowed 0 key)
    {fuel : Nat} {work : Work} {m : Machine} (h : Confined Φ allowed ⟨fuel, work, m⟩) :
    work.run host fuel m ≠ .exhausted := by
  intro hexhausted
  obtain ⟨t, hway, hstarved⟩ := starves_of_exhausted hexhausted
  obtain ⟨-, hw⟩ := hway.confined hΦ h
  obtain ⟨fuel, work, m⟩ := t
  cases work <;> try exact hstarved
  · obtain rfl : fuel = 0 := hstarved
    exact hallowed _ hw
  · exact hw

end Stage

/-! ## Functions of a program -/

namespace Callables

/-- What can be called before there are methods. -/
def supplied (natives : List ((String × Nat) × Native)) : Callables :=
  (Signature.print.key, .print) :: natives.map fun f => (f.1, .native f.2)

/-- The methods of a program. -/
def ofMethods (methods : List Method) : Callables :=
  methods.map fun m => (m.key, .method m Scopes.root)

variable {natives : List ((String × Nat) × Native)} {methods : List Method}

/-- A method that is found is one of the program. -/
theorem mem_methods_of_lookup {key : String × Nat} {method : Method} {home : Nat}
    (h : (supplied natives ++ ofMethods methods).lookup key = some (.method method home)) :
    method ∈ methods ∧ method.key = key := by
  rcases List.mem_append.mp (mem_of_lookup h) with hmem | hmem
  · rcases List.mem_cons.mp hmem with heq | hmem
    · cases (Prod.mk.inj heq).2
    · obtain ⟨f, -, heq⟩ := List.mem_map.mp hmem
      cases (Prod.mk.inj heq).2
  · obtain ⟨m, hm, heq⟩ := List.mem_map.mp hmem
    obtain ⟨rfl, hmethod⟩ := Prod.mk.inj heq
    obtain ⟨rfl, -⟩ := Callable.method.inj hmethod
    exact ⟨hm, rfl⟩

variable {known : List (String × Nat)}

/-- What is known, or stands in front of some place of a program, is a method in front of that place
if it is a method, and this method only calls what is known or in front of itself. -/
theorem split_of_lookup (hdescend : Method.Descend known methods)
    (hstraight : ∀ m ∈ methods, ∀ stmt ∈ Stmt.allStatements m.body, ¬ stmt.isWhile)
    {before after : List Method} (heq : methods = before ++ after) {key : String × Nat}
    (hkey : key ∈ known ++ before.map Method.key) {method : Method} {home : Nat}
    (h : (supplied natives ++ ofMethods methods).lookup key = some (.method method home)) :
    ∃ front back, before = front ++ method :: back ∧
      Stmt.Confined (· ∈ known ++ front.map Method.key) method.body := by
  obtain ⟨hmem, rfl⟩ := mem_methods_of_lookup h
  have hbefore : method ∈ before := by
    rw [heq] at hmem
    rcases List.mem_append.mp hmem with hmem | hmem
    · exact hmem
    · -- behind the place it would have the key of something in front of it
      obtain ⟨front, back, rfl⟩ := List.append_of_mem hmem
      rw [← List.append_assoc] at heq
      refine absurd ?_ (hdescend _ _ _ heq).1
      rw [List.map_append, ← List.append_assoc]
      exact List.mem_append_left _ hkey
  obtain ⟨front, back, rfl⟩ := List.append_of_mem hbefore
  rw [List.append_assoc, List.cons_append] at heq
  exact ⟨front, back, rfl, hstraight method hmem, (hdescend _ _ _ heq).2⟩

/-- Known functions, and the methods in front of a place that is reached with so much fuel. -/
def Reached (known : List (String × Nat)) (methods : List Method) (fuel : Nat)
    (key : String × Nat) : Prop :=
  ∃ before after, methods = before ++ after ∧ before.length < fuel ∧
    key ∈ known ++ before.map Method.key

theorem not_reached_zero (key : String × Nat) : ¬ Reached known methods 0 key :=
  fun ⟨_, _, _, hless, _⟩ => Nat.not_lt_zero _ hless

theorem descend_nil (known : List (String × Nat)) : Method.Descend known [] :=
  fun before _ _ heq => by cases before <;> cases heq

theorem descend_reached (hdescend : Method.Descend known methods)
    (hstraight : ∀ m ∈ methods, ∀ stmt ∈ Stmt.allStatements m.body, ¬ stmt.isWhile) :
    (supplied natives ++ ofMethods methods).Descend (Reached known methods) := by
  rintro fuel key method home ⟨before, after, heq, hless, hkey⟩ hfound
  obtain ⟨front, back, rfl, hbody⟩ := split_of_lookup hdescend hstraight heq hkey hfound
  refine ⟨hbody.straight, fun key hkey =>
    ⟨front, method :: back ++ after, ?_, ?_, hbody.calls key hkey⟩⟩
  · rw [heq, List.append_assoc]
  · rw [List.length_append, List.length_cons] at hless
    omega

theorem descend_before (hdescend : Method.Descend known methods)
    (hstraight : ∀ m ∈ methods, ∀ stmt ∈ Stmt.allStatements m.body, ¬ stmt.isWhile)
    {before after : List Method} (heq : methods = before ++ after) :
    (supplied natives ++ ofMethods methods).Descend
      fun _ key => key ∈ known ++ before.map Method.key := by
  intro fuel key method home hkey hfound
  obtain ⟨front, back, rfl, hbody⟩ := split_of_lookup hdescend hstraight heq hkey hfound
  refine ⟨hbody.straight, fun key hkey => ?_⟩
  rw [List.map_append, ← List.append_assoc]
  exact List.mem_append_left _ (hbody.calls key hkey)

end Callables

namespace Machine

variable {m last : Machine} {natives : List ((String × Nat) × Native)}

/-- A machine offers what the host supplies. -/
theorem offers_ofHost {printer : Printer} {values : List (String × Value)}
    (h : Machine.ofHost printer values natives = .ok m) : m.Offers (.supplied natives) := by
  obtain ⟨mid, hmid, hlast⟩ := ok_of_bind h
  have hvariables := foldlM_ok [] (P := fun _ m => m.Offers (.supplied []))
    (fun _ v _ s s' hs hd => hs.of_keeps (keeps_declareInRoot hd))
    ⟨sound_ofPrinter printer, rfl⟩ hmid
  exact foldlM_ok [] (P := fun before m => m.Offers (.supplied before))
    (fun before f _ s s' hs hd => by
      have hadded := hs.declareFunction hd (hs.toSound.defineFunction hd)
      rw [Callables.supplied, List.map_append]
      exact hadded)
    hvariables hlast

/-- With its methods defined, a machine offers them too. -/
theorem Offers.of_defineMethods : ∀ {methods : List Method} {Φ : Callables} {m last : Machine}
    {u : Unit}, m.Offers Φ → Run.defineMethods methods m = .done u last →
      last.Offers (Φ ++ .ofMethods methods)
  | [], Φ, m, last, u, hm, h => by
    obtain ⟨-, rfl⟩ := Outcome.done.inj h
    rw [Callables.ofMethods, List.map_nil, List.append_nil]
    exact hm
  | method :: methods, Φ, m, last, u, hm, h => by
    obtain ⟨_, mid, hdeclare, h⟩ := Run.done_of_bind h
    have hdeclare := Run.eq_of_change hdeclare
    have hmid := hm.declareFunction hdeclare
      (hm.toSound.of_keeps (keeps_declareMethod hdeclare) (.inr rfl))
    rw [Callables.ofMethods, List.map_cons, List.append_cons]
    exact hmid.of_defineMethods h

end Machine

/-! ## Calls on the way of a program -/

namespace Stage

variable {host : Host} {Φ : Callables} {allowed : Nat → String × Nat → Prop}

/-- A stage is a call that means the given function. -/
def Calls (s : Stage) (f : Callable) : Prop :=
  match s.work with
  | .call n arguments position => s.machine.lookupFunction n arguments.length position = .ok f
  | _ => False

/-- A stage is a call. -/
def IsCall (s : Stage) : Prop := ∃ n arguments position, s.work = .call n arguments position

/-- A confined stage calls what is allowed. -/
theorem Confined.lookup_of_calls {s : Stage} (h : s.Confined Φ allowed) {f : Callable}
    (hcalls : s.Calls f) : ∃ key, allowed s.fuel key ∧ Φ.lookup key = some f := by
  obtain ⟨fuel, work, m⟩ := s
  cases work <;> try exact hcalls.elim
  case call n arguments position =>
    exact ⟨_, h.work, h.machine.lookupFunction_eq_ok.mp hcalls⟩

/-- A confined call means something, if all that is allowed is offered. -/
theorem Confined.exists_calls {s : Stage} (h : s.Confined Φ allowed) (hcall : s.IsCall)
    (hΦ : ∀ key, allowed s.fuel key → key ∈ Φ.map Prod.fst) : ∃ f, s.Calls f := by
  obtain ⟨fuel, work, m⟩ := s
  obtain ⟨n, arguments, position, rfl⟩ := hcall
  obtain ⟨f, hf⟩ := Option.isSome_iff_exists.mp (isSome_lookup_iff.mpr (hΦ _ h.work))
  exact ⟨f, h.machine.lookupFunction_eq_ok.mpr hf⟩

/-- The methods of a program are defined without calls. -/
theorem Way.methods {s t : Stage} (h : s.Way host t) {methods : List Method}
    (hs : s.work = .methods methods) : ∃ methods, t.work = .methods methods := by
  induction h with
  | refl => exact ⟨methods, hs⟩
  | tail _ hnext ih =>
    obtain ⟨rest, hrest⟩ := ih
    cases hnext <;> cases hrest
    exact ⟨_, rfl⟩

/-- A call on the way of a program is on that of a field or on that of its entry method. -/
theorem Way.of_program {fuel : Nat} {p : Program} {m : Machine} {s : Stage}
    (h : Way host ⟨fuel, .program p, m⟩ s) (hcall : s.IsCall) :
    Way host ⟨fuel, .fields p.fields, m⟩ s ∨ ∃ mid last,
      Run.defineFields host fuel p.fields m = .done () mid ∧
      Run.defineMethods p.methods mid = .done () last ∧
      Way host ⟨fuel, .call Program.entryName [] p.span.stop, last⟩ s := by
  obtain ⟨n, arguments, position, hwork⟩ := hcall
  rcases Relation.ReflTransGen.cases_head h with rfl | ⟨t, hnext, hway⟩
  · cases hwork
  · cases hnext with
    | programFields => exact .inl hway
    | programMethods =>
      obtain ⟨rest, hrest⟩ := Way.methods hway rfl
      rw [hrest] at hwork
      cases hwork
    | programEntry hfields hmethods => exact .inr ⟨_, _, hfields, hmethods, hway⟩

/-- Inside a call of a method only what is known or stands in front of it is called. -/
theorem Confined.inside {natives : List ((String × Nat) × Native)} {known : List (String × Nat)}
    {before after : List Method} {method : Method} {home : Nat}
    (hdescend : Method.Descend known (before ++ method :: after))
    (hstraight : ∀ m ∈ before ++ method :: after, ∀ stmt ∈ Stmt.allStatements m.body,
      ¬ stmt.isWhile) {s t : Stage}
    (h : s.machine.Offers (.supplied natives ++ .ofMethods (before ++ method :: after)))
    (hcalls : s.Calls (.method method home)) (hway : Relation.TransGen (Next host) s t) :
    t.Confined (.supplied natives ++ .ofMethods (before ++ method :: after))
      fun _ key => key ∈ known ++ before.map Method.key := by
  obtain ⟨u, hnext, hway⟩ := Relation.TransGen.head'_iff.mp hway
  refine Way.confined (Callables.descend_before hdescend hstraight rfl) hway ?_
  obtain ⟨fuel, work, m⟩ := s
  have hoffers := fun hdefines => hnext.offers h hdefines
  cases hnext <;> try exact hcalls.elim
  case called => exact ⟨hoffers rfl, trivial⟩
  case body hfound _ =>
    obtain ⟨rfl, -⟩ := Callable.method.inj (Except.ok.inj (hfound.symm.trans hcalls))
    exact ⟨hoffers rfl, hstraight _ (by simp), (hdescend _ _ _ rfl).2⟩

end Stage

/-! ## Accepted programs -/

namespace Program

open Stage Callables

variable {host : Host} {natives : List ((String × Nat) × Native)} {known : List (String × Nat)}
  {m : Machine} {p : Program}

/-- The fields of a program that descends are confined to what is known, without methods. -/
theorem confined_fields (allowed : Nat → String × Nat → Prop) {fuel : Nat}
    (hm : m.Offers (supplied natives)) (h : p.Descends known)
    (hallowed : ∀ key ∈ known, allowed fuel key) :
    Stage.Confined (supplied natives ++ ofMethods []) allowed ⟨fuel, .fields p.fields, m⟩ := by
  refine ⟨?_, fun f hf e he key hkey => hallowed key (h.fields f hf e he key hkey)⟩
  rw [ofMethods, List.map_nil, List.append_nil]
  exact hm

/-- With its methods defined, the call of its entry is confined. -/
theorem confined_entry (allowed : Nat → String × Nat → Prop) {fuel : Nat} {mid last : Machine}
    (hm : m.Offers (supplied natives)) (h : p.Descends known)
    (hfields : Run.defineFields host fuel p.fields m = .done () mid)
    (hmethods : Run.defineMethods p.methods mid = .done () last)
    (hallowed : ∀ key ∈ known ++ p.methods.map Method.key, allowed fuel key) :
    Stage.Confined (supplied natives ++ ofMethods p.methods) allowed
      ⟨fuel, .call entryName [] p.span.stop, last⟩ := by
  have hstays := Run.defineFields_stays host fuel p.fields m hm.depth_pos
  exact ⟨(hm.of_keeps (hstays.of_done hfields)).of_defineMethods hmethods, hallowed _ h.entry⟩

/-- A program that descends ends with more fuel than it has methods. -/
theorem ne_exhausted_of_descends (hm : m.Offers (supplied natives)) (h : p.Descends known)
    (hstraight : ∀ m ∈ p.methods, ∀ stmt ∈ Stmt.allStatements m.body, ¬ stmt.isWhile)
    {fuel : Nat} (hfuel : p.methods.length < fuel) : Run.program host fuel p m ≠ .exhausted := by
  intro hexhausted
  rcases Run.exhausted_of_bind hexhausted with hfields | ⟨_, mid, hfields, hexhausted⟩
  · have hconfined := confined_fields (Reached known []) hm h fun key hkey =>
      ⟨[], [], rfl, Nat.zero_lt_of_lt hfuel, List.mem_append_left _ hkey⟩
    exact ne_exhausted_of_confined (descend_reached (descend_nil known) nofun) not_reached_zero
      hconfined hfields
  rcases Run.exhausted_of_bind hexhausted with hmethods | ⟨_, last, hmethods, hcall⟩
  · exact Run.ends_defineMethods _ _ hmethods
  · have hconfined := confined_entry (Reached known p.methods) hm h hfields hmethods
      fun key hkey => ⟨p.methods, [], (List.append_nil _).symm, hfuel, hkey⟩
    exact ne_exhausted_of_confined (descend_reached h.methods hstraight) not_reached_zero
      hconfined hcall

/-- Every call on the way of a program that descends means something, and inside a call of a method
only methods in front of it are called. -/
theorem calls_of_descends (hm : m.Offers (supplied natives)) (h : p.Descends known)
    (hknown : ∀ key ∈ known, key ∈ (supplied natives).map Prod.fst)
    (hstraight : ∀ m ∈ p.methods, ∀ stmt ∈ Stmt.allStatements m.body, ¬ stmt.isWhile)
    {fuel : Nat} {s : Stage} (hway : Way host ⟨fuel, .program p, m⟩ s) (hcall : s.IsCall) :
    ∃ f, s.Calls f ∧ ∀ method home, f = .method method home →
      ∀ t other home', Relation.TransGen (Next host) s t → t.Calls (.method other home') →
        ∃ before after, p.methods = before ++ method :: after ∧ other ∈ before := by
  rcases Way.of_program hway hcall with hway | ⟨mid, last, hfields, hmethods, hway⟩
  · -- there are no methods yet
    have hempty : ([] : List Method) = [] ++ [] := rfl
    have hs := Way.confined (descend_before (descend_nil known) nofun hempty) hway
      (confined_fields _ hm h fun _ hkey => List.mem_append_left _ hkey)
    obtain ⟨f, hf⟩ := hs.exists_calls hcall fun key hkey => by
      rw [List.map_append]
      exact List.mem_append_left _ (hknown key (by simpa using hkey))
    refine ⟨f, hf, fun method home heq => ?_⟩
    obtain ⟨key, -, hlookup⟩ := hs.lookup_of_calls (heq ▸ hf)
    cases (mem_methods_of_lookup hlookup).1
  · have hs := Way.confined (descend_before h.methods hstraight (List.append_nil _).symm) hway
      (confined_entry _ hm h hfields hmethods fun _ hkey => hkey)
    obtain ⟨f, hf⟩ := hs.exists_calls hcall fun key hkey => by
      rw [List.map_append]
      refine List.mem_append.mpr ((List.mem_append.mp hkey).imp (hknown key) fun hkey => ?_)
      rw [ofMethods, List.map_map]
      exact hkey
    refine ⟨f, hf, fun method home heq t other home' hinside hcalls => ?_⟩
    obtain ⟨key, -, hlookup⟩ := hs.lookup_of_calls (heq ▸ hf)
    obtain ⟨before, after, hsplit⟩ := List.append_of_mem (mem_methods_of_lookup hlookup).1
    have hmethods := h.methods
    have hmachine := hs.machine
    rw [hsplit] at hmethods hstraight hmachine
    have ht := Confined.inside hmethods hstraight hmachine (heq ▸ hf) hinside
    obtain ⟨key', hkey', hlookup'⟩ := ht.lookup_of_calls hcalls
    obtain ⟨front, back, rfl, -⟩ := split_of_lookup hmethods hstraight rfl hkey' hlookup'
    exact ⟨_, after, hsplit, by simp⟩

/-- An accepted program without `WHILE` in which no method calls itself terminates on a machine to
which the host has supplied functions under the same keys: it comes to one end with all fuel from
some amount on. The reason is the order of methods. Every call on the way of the program means a
function, and if that is a method, all methods that are called inside stand in front of it. -/
theorem terminates_of_straight {registry : Registry} {types : List (String × Ty)}
    {functions : List Signature} {printer : Printer} {values : List (String × Value)}
    {natives : List ((String × Nat) × Native)} {c : Checker} {m : Machine} {p : Program}
    (hc : Checker.ofHost registry types functions = .ok c)
    (hm : Machine.ofHost printer values natives = .ok m)
    (hkeys : ∀ key, key ∈ functions.map Signature.key ↔ key ∈ natives.map Prod.fst)
    (hp : (p.check c).2.verdict = .ok ()) (hstraight : ∀ stmt ∈ p.statements, ¬ stmt.isWhile)
    (hself : ∀ method ∈ p.methods, method.key ∉ Stmt.allCalls method.body) (host : Host) :
    (∃ outcome, outcome ≠ .exhausted ∧ ∀ fuel, p.methods.length < fuel →
      Run.program host fuel (p.check c).2.tree m = outcome) ∧
    ∀ fuel s, Way host ⟨fuel, .program (p.check c).2.tree, m⟩ s → s.IsCall →
      ∃ f, s.Calls f ∧ ∀ method home, f = .method method home →
        ∀ t other home', Relation.TransGen (Next host) s t → t.Calls (.method other home') →
          ∃ before after, (p.check c).2.tree.methods = before ++ method :: after ∧
            other ∈ before := by
  have hroot := Checker.atRoot_ofHost Regime.free_closed (fun _ _ => trivial) (fun _ _ => trivial)
    (fun _ _ => ⟨fun _ _ => trivial, trivial⟩) hc
  have hdescends := descends_of_check hroot hp hself
  have hoffers := Machine.offers_ofHost hm
  have hstraight' : ∀ m ∈ (p.check c).2.tree.methods, ∀ stmt ∈ Stmt.allStatements m.body,
      ¬ stmt.isWhile := fun m hm stmt hstmt =>
    forall_not_isWhile_of_cleared (p.cleared_check c) hstraight stmt
      (List.mem_flatMap.mpr ⟨m, hm, hstmt⟩)
  constructor
  · have hlength : (p.check c).2.tree.methods.length = p.methods.length := by
      have hcleared := congrArg (fun p : Program => p.methods.length) (p.cleared_check c)
      simpa only [cleared, List.length_map] using hcleared
    have hends : ∀ {fuel}, p.methods.length < fuel →
        Run.program host fuel (p.check c).2.tree m ≠ .exhausted := fun hfuel =>
      ne_exhausted_of_descends hoffers hdescends hstraight' (hlength ▸ hfuel)
    exact ⟨_, hends (Nat.lt_succ_self _), fun fuel hfuel =>
      Work.run_unique host (.program _) (hends hfuel) (hends (Nat.lt_succ_self _))⟩
  · intro fuel s hway hcall
    refine calls_of_descends hoffers hdescends (fun key hkey => ?_) hstraight' hway hcall
    have hnatives : (supplied natives).map Prod.fst =
        Signature.print.key :: natives.map Prod.fst := by
      rw [supplied, List.map_cons, List.map_map]
      rfl
    rw [Functions.keys, List.map_cons, List.map_map] at hkey
    rw [hnatives]
    exact List.mem_cons.mpr ((List.mem_cons.mp hkey).imp_right (hkeys key).mp)

/-- A function that the host supplies for each whole number. -/
def stepSignature : Signature := ⟨"step", "step", [.integer], .integer⟩

/-- Two methods of one name, a field that the host helps to start, and a loop in a loop. -/
def stepping : Program where
  fields := [⟨"size", "Integer",
    some (.call "step" [.literal (.integer 1) none default] none default), none, default⟩]
  methods := [
    ⟨"add", [("a", "Integer")], some "Integer",
      [.returns (.binary .plus (.name "a" none default) (.name "size" none default) none default)
        default], none, default⟩,
    ⟨"add", [("a", "Integer"), ("b", "Integer")], some "Integer",
      [.returns (.binary .plus (.call "add" [.name "a" none default] none default)
        (.name "b" none default) none default) default], none, default⟩,
    ⟨entryName, [], some "Integer",
      [.forEach "i" (.name "items" none default) [.forEach "j" (.name "items" none default)
        [.expression (.call "add" [.name "i" none default, .name "j" none default] none default)
          default] default] default,
        .returns (.name "size" none default) default], none, default⟩]
  span := default

theorem stepping_terminates : ∃ c m,
    Checker.ofHost .builtin [("items", .integerIterable)] [stepSignature] = .ok c ∧
    Machine.ofHost .empty [("items", .items [.integer 1, .integer 2])]
      [(stepSignature.key, fun _ => .ok (.integer 7))] = .ok m ∧
    (stepping.check c).2.verdict = .ok () ∧
    ∃ outcome, outcome ≠ .exhausted ∧ ∀ fuel, stepping.methods.length < fuel →
      Run.program (fun _ value _ => .ok value) fuel (stepping.check c).2.tree m = outcome := by
  refine ⟨_, _, rfl, rfl, by decide +kernel, ?_⟩
  exact (terminates_of_straight
    (show Checker.ofHost .builtin [("items", .integerIterable)] [stepSignature] = .ok _ from rfl)
    (show Machine.ofHost .empty [("items", .items [.integer 1, .integer 2])]
      [(stepSignature.key, fun _ => .ok (.integer 7))] = .ok _ from rfl)
    (fun key => Iff.rfl) (by decide +kernel) (by decide) (by decide) _).1

end Program

end TeachLang
