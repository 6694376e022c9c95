import TeachLang.Proofs.Walks

/-!
# What checking leaves behind

A host may use one checker for many expressions, statements and programs, and within a program it
stands in one scope after the other. Whatever it is given in any of these states, and whether that
is accepted or not, it comes back with as many scopes as before, in the same one of them, and with
the definitions that were asked for and no others (`Checker.Reachable.no_residue`): none by an
expression, the variable of a declaration by a statement, and by a program the variables of its
fields and the signatures of its methods, up to the first fault.
-/

namespace TeachLang

/-! ## The states of a checker -/

/-- The checkers that a host may hold in its hands. -/
inductive Checker.Idle : Checker → Prop where
  /-- a new one -/
  | start (registry : Registry) : Idle (.ofRegistry registry)
  /-- one for which the host changed what types can be named -/
  | types {c : Checker} (registry : Registry) : c.Idle → Idle { c with registry := registry }
  /-- one with a variable that the host supplies -/
  | given {c last : Checker} {name : String} {ty : Ty} :
    c.Idle → c.defineVariable name ty = .ok last → last.Idle
  /-- one with a function that the host supplies -/
  | native {c last : Checker} {f : Signature} :
    c.Idle → c.defineFunction f = .ok last → last.Idle
  /-- one that went through an expression -/
  | expression {c : Checker} (e : Expr) : c.Idle → (e.walk c).1.Idle
  /-- one that went through a statement -/
  | statement {c : Checker} (stmt : Stmt) : c.Idle → (stmt.walk c).1.Idle
  /-- one that went through a program -/
  | program {c : Checker} (p : Program) : c.Idle → (p.walk c).1.Idle

/-- The checkers that a part of a program may be given to. -/
inductive Checker.Reachable : Checker → Prop where
  /-- one that a host holds -/
  | idle {c : Checker} : c.Idle → c.Reachable
  /-- one that entered a scope -/
  | enter {c : Checker} : c.Reachable → c.enter.Reachable
  /-- one with a parameter, the variable of a loop, a field or a local variable -/
  | declared {c last : Checker} {v : Variable} {position : Position} :
    c.Reachable → c.declare v position = .ok last → last.Reachable
  /-- one with the signature of a method -/
  | registered {c last : Checker} {f : Signature} {position : Position} :
    c.Reachable → c.declareFunction f position = .ok last → last.Reachable
  /-- one that went through a statement -/
  | statement {c : Checker} (stmt : Stmt) : c.Reachable → (stmt.walk c).1.Reachable

variable {c : Checker}

/-! ## Fields and methods -/

/-- What is declared by fields one after the other: a variable by each, up to the first fault. -/
inductive Field.Declare : Checker → List Field → List Variable → Prop where
  /-- all were accepted -/
  | done {c : Checker} : Declare c [] []
  /-- a field is refused -/
  | refused {c : Checker} {f : Field} {fields : List Field} {d : Diagnostic} :
    (f.walk c).2.verdict = .error d → Declare c (f :: fields) []
  /-- a field is accepted, with the variable in its slot -/
  | accepted {c : Checker} {f : Field} {fields : List Field} {v : Variable} {vs : List Variable} :
    (f.walk c).2.verdict = .ok () → (f.walk c).2.tree.binding = some v → v.name = f.name →
    Declare (f.walk c).1 fields vs → Declare c (f :: fields) (v :: vs)

/-- What is registered by methods one after the other: a signature by each, up to the first fault,
and also by a method that is only faulty in its body. -/
inductive Method.Register : Checker → List Method → List Signature → Prop where
  /-- all were accepted -/
  | done {c : Checker} : Register c [] []
  /-- the signature of a method cannot be declared -/
  | refused {c : Checker} {m : Method} {methods : List Method} :
    (∀ f, ¬ m.Registered c f) → Register c (m :: methods) []
  /-- a method is faulty behind its signature -/
  | faulty {c : Checker} {m : Method} {methods : List Method} {f : Signature} {d : Diagnostic} :
    m.Registered c f → (m.walk c).2.verdict = .error d → Register c (m :: methods) [f]
  /-- a method is accepted -/
  | accepted {c : Checker} {m : Method} {methods : List Method} {f : Signature}
    {fs : List Signature} : m.Registered c f → (m.walk c).2.verdict = .ok () →
    Register (m.walk c).1 methods fs → Register c (m :: methods) (f :: fs)

/-- What is defined by a program: by its methods only if none of its fields is faulty. -/
def Program.Defines (c : Checker) (p : Program) (vs : List Variable) (fs : List Signature) : Prop :=
  Field.Declare c p.fields vs ∧
    (vs.length < p.fields.length ∧ fs = [] ∨
      vs.length = p.fields.length ∧
        Method.Register (Walk.each Field.walk p.fields c).1 p.methods fs)

/-- The fields of a program leave their variables. -/
theorem Field.declare_each (fields : List Field) : ∀ {c : Checker}, c.Live →
    ∃ vs, Declare c fields vs ∧ c.Grows (Walk.each Field.walk fields c).1 vs [] ∧
      (vs.length < fields.length ∧ (∃ d, (Walk.each Field.walk fields c).2.verdict = .error d) ∨
        vs.length = fields.length ∧ (Walk.each Field.walk fields c).2.verdict = .ok ()) := by
  induction fields with
  | nil => exact fun hc => ⟨[], .done, hc.grows_self, .inr ⟨rfl, rfl⟩⟩
  | cons f fields ih =>
    intro c hc
    have hwalk := f.walk_eq (c := c)
    obtain ⟨first, v, last, hname, hgrows, hcheck⟩ | ⟨tree, d, hcheck⟩ :=
      hc.checkVariable_cases f.name (some f.typeName) f.value f.binding f.span.start
        fun value binding => { f with value := value, binding := binding }
    · rw [Field.check, hcheck] at hwalk
      obtain ⟨vs, hdeclare, hothers, hend⟩ := ih (hgrows.live hc)
      have haccepted : (f.walk c).2.verdict = .ok () := by rw [hwalk]; rfl
      refine ⟨v :: vs, .accepted haccepted (by rw [hwalk]; rfl) hname (by rwa [hwalk]), ?_, ?_⟩
      · rw [Walk.each_of_ok haccepted, hwalk]
        exact hgrows.trans hothers
      · rw [Walk.each_of_ok haccepted, hwalk, List.length_cons, List.length_cons]
        exact hend.imp (And.imp_left Nat.succ_lt_succ) (And.imp_left (congrArg _))
    · rw [Field.check, hcheck] at hwalk
      have hrefused : (f.walk c).2.verdict = .error d := by rw [hwalk]
      refine ⟨[], .refused hrefused, ?_, .inl ⟨Nat.succ_pos _, d, ?_⟩⟩
      · rw [Walk.each_of_error hrefused, hwalk]
        exact hc.grows_self
      · rw [Walk.each_of_error hrefused]

/-- The methods of a program leave their signatures. -/
theorem Method.register_each (methods : List Method) : ∀ {c : Checker}, c.Live →
    ∃ fs, Register c methods fs ∧ c.Grows (Walk.each Method.walk methods c).1 [] fs := by
  induction methods with
  | nil => exact fun hc => ⟨[], .done, hc.grows_self⟩
  | cons m methods ih =>
    intro c hc
    obtain ⟨hwalk, ⟨f, hregistered, hgrows⟩ | ⟨hrefused, d, hcheck⟩⟩ := m.walk_eq hc
    · rw [← hwalk] at hgrows
      rcases hverdict : (m.walk c).2.verdict with d | u
      · refine ⟨[f], .faulty hregistered hverdict, ?_⟩
        rwa [Walk.each_of_error hverdict]
      · obtain ⟨fs, hregister, hothers⟩ := ih (hgrows.live hc)
        refine ⟨f :: fs, .accepted hregistered hverdict hregister, ?_⟩
        rw [Walk.each_of_ok hverdict]
        exact hgrows.trans hothers
    · rw [hcheck] at hwalk
      refine ⟨[], .refused hrefused, ?_⟩
      rw [Walk.each_of_error (by rw [hwalk]), hwalk]
      exact hc.grows_self

/-- A program leaves what it defines. -/
theorem Program.defines_walk (hc : c.Live) (p : Program) :
    ∃ vs fs, p.Defines c vs fs ∧ c.Grows (p.walk c).1 vs fs := by
  obtain ⟨vs, hdeclare, hfields, ⟨hlt, d, hd⟩ | ⟨hlength, hok⟩⟩ := Field.declare_each p.fields hc
  · refine ⟨vs, [], ⟨hdeclare, .inl ⟨hlt, rfl⟩⟩, ?_⟩
    simpa only [walk, Walk.andThen, hd] using hfields
  · obtain ⟨fs, hregister, hmethods⟩ := Method.register_each p.methods (hfields.live hc)
    have hall := hfields.trans hmethods
    rw [List.append_nil, List.nil_append] at hall
    refine ⟨vs, fs, ⟨hdeclare, .inr ⟨hlength, hregister⟩⟩, ?_⟩
    simp only [walk, Walk.andThen, hok]
    rcases (Walk.each Method.walk p.methods (Walk.each Field.walk p.fields c).1).2.verdict
      with d | u
    · exact hall
    · exact hall

/-! ## Reachable states -/

namespace Checker

variable {last : Checker}

/-- In the root, what the host supplies is declared like anything else. -/
theorem grows_of_defineVariable (hc : c.Live) (hroot : c.scope = Scopes.root) {name : String}
    {ty : Ty} (h : c.defineVariable name ty = .ok last) : c.Grows last [.plain name ty] [] := by
  obtain ⟨registry, scopes, scope⟩ := c
  obtain rfl : scope = Scopes.root := hroot
  exact hc.grows_of_declare h

theorem grows_of_defineFunction (hc : c.Live) (hroot : c.scope = Scopes.root) {f : Signature}
    (h : c.defineFunction f = .ok last) : c.Grows last [] [f] := by
  obtain ⟨registry, scopes, scope⟩ := c
  obtain rfl : scope = Scopes.root := hroot
  exact hc.grows_of_declareFunction h

/-- A host always finds the checker in the root. -/
theorem Idle.atRoot (h : c.Idle) : c.Live ∧ c.scope = Scopes.root := by
  have keeps : ∀ {c last : Checker} {vs : List Variable} {fs : List Signature},
      c.Live ∧ c.scope = Scopes.root → c.Grows last vs fs →
        last.Live ∧ last.scope = Scopes.root :=
    fun hc hgrows => ⟨hgrows.live hc.1, hgrows.scope.trans hc.2⟩
  induction h with
  | start registry => exact ⟨⟨Nat.one_pos⟩, rfl⟩
  | types registry _ ih => exact ⟨⟨ih.1.lt⟩, ih.2⟩
  | given _ h ih => exact keeps ih (grows_of_defineVariable ih.1 ih.2 h)
  | native _ h ih => exact keeps ih (grows_of_defineFunction ih.1 ih.2 h)
  | expression e _ ih =>
    rw [e.walk_eq]
    exact ih
  | statement stmt _ ih =>
    rw [stmt.walk_eq ih.1]
    obtain ⟨vs, hgrows⟩ := (Stmt.leaves_check ih.1 stmt).grows ih.1
    exact keeps ih hgrows
  | program p _ ih =>
    obtain ⟨vs, fs, -, hgrows⟩ := p.defines_walk ih.1
    exact keeps ih hgrows

/-- A part of a program always finds the checker in a scope that is live. -/
theorem Reachable.live (h : c.Reachable) : c.Live := by
  induction h with
  | idle h => exact h.atRoot.1
  | enter => exact live_enter _
  | declared _ h ih => exact (ih.grows_of_declare h).live ih
  | registered _ h ih => exact (ih.grows_of_declareFunction h).live ih
  | statement stmt _ ih =>
    rw [stmt.walk_eq ih]
    obtain ⟨vs, hgrows⟩ := (Stmt.leaves_check ih stmt).grows ih
    exact hgrows.live ih

/-- **Scopes leave no residue**. In every state that a checker can come to, an expression changes
nothing, and a statement leaves as many scopes as there were, in the same one of them, with no new
definition but the variable of a declaration that was accepted. A program, given to a checker by a
host, adds to the root the variables of its fields and the signatures of its methods up to the first
fault, in their order, and changes nothing else. All of them come to what checking without a trace
comes to. -/
theorem Reachable.no_residue (h : c.Reachable) :
    (∀ e : Expr, e.walk c = (c, e.check c)) ∧
      (∀ stmt : Stmt, stmt.walk c = stmt.check c ∧ stmt.Leaves c (stmt.walk c) ∧
        (stmt.walk c).1.depth = c.depth ∧ (stmt.walk c).1.scope = c.scope) ∧
      (c.Idle → c.scope = Scopes.root ∧ ∀ p : Program, p.walk c = p.check c ∧
        ∃ vs fs, p.Defines c vs fs ∧ c.Grows (p.walk c).1 vs fs) := by
  refine ⟨fun e => by rw [e.walk_eq]; rfl, fun stmt => ?_, fun hidle => ⟨hidle.atRoot.2, ?_⟩⟩
  · have hleaves := Stmt.leaves_check h.live stmt
    obtain ⟨vs, hgrows⟩ := hleaves.grows h.live
    rw [stmt.walk_eq h.live]
    exact ⟨rfl, hleaves, hgrows.depth, hgrows.scope⟩
  · exact fun p => ⟨p.walk_eq h.live, p.defines_walk h.live⟩

/-- A program whose second method uses a name that is not defined. -/
def undefinedInside : Program where
  fields := [⟨"a", "Integer", none, none, default⟩]
  methods := [⟨"main", [], some "Integer", [.returns (.name "a" none default) default], none,
      default⟩,
    ⟨"run", [("n", "Integer")], none, [.whileLoop (.name "b" none default) [] default], none,
      default⟩,
    ⟨"stop", [], none, [], none, default⟩]
  span := default

theorem undefinedInside_leaves_signatures :
    initial.Reachable ∧ initial.Idle ∧
      (∃ vs fs, undefinedInside.Defines .initial vs fs ∧
        initial.Grows (undefinedInside.walk .initial).1 vs fs) ∧
      (undefinedInside.walk .initial).2.verdict = .error ⟨.undefinedName "b", default⟩ ∧
      ((undefinedInside.walk .initial).1.scopes.bindings Scopes.root).map Prod.fst = ["a"] ∧
      ((undefinedInside.walk .initial).1.scopes.get? Scopes.root).map
        (fun scope => scope.functions.map Prod.fst) = some [("print", 1), ("main", 0), ("run", 1)] ∧
      (undefinedInside.walk .initial).1.depth = 1 := by
  have hidle : initial.Idle := .start .builtin
  have h := (Reachable.idle hidle).no_residue
  exact ⟨.idle hidle, hidle, ((h.2.2 hidle).2 undefinedInside).2, by decide +kernel,
    by decide +kernel, by decide +kernel, by decide +kernel⟩

end Checker

end TeachLang
