import TeachLang.Proofs.HiddenChecking
import TeachLang.Proofs.Lockstep

/-!
# Running what does not mention a definition

Two machines may differ in one definition that is hidden, as long as no method mentions it. Runs of
what does not mention it either end alike on both (`Run.Respects`), and leave them with nothing else
between them. Unlike machines in lockstep (`Proofs/Lockstep`), these differ in what some names
mean, so that each rule asks for what is mentioned.
-/

namespace TeachLang

variable {α β : Type} {hidden : Definition}

/-! ## Machines -/

/-- What can be called does not mention what is hidden. -/
def Callable.Ignores (hidden : Definition) : Callable → Prop
  | print | native _ => True
  | method m _ => hidden ∉ m.mentions

/-- Machines that are the same but for a hidden definition, which no method mentions. -/
structure Machine.SameBut (hidden : Definition) (m n : Machine) : Prop where
  /-- they have the same other definitions -/
  scopes : Scopes.SameBut hidden m.scopes n.scopes
  /-- the program stands in the same scope -/
  scope : m.scope = n.scope
  /-- the same was printed -/
  printer : m.printer = n.printer
  /-- what can be called does not mention what is hidden -/
  ignores : m.scopes.All (fun _ => True) (Callable.Ignores hidden)

namespace Machine.SameBut

variable {m n : Machine} {name : String} {arity : Nat}

/-- What is not hidden is found alike on both machines. -/
theorem lookupVariable_eq (h : SameBut hidden m n) (hname : .named name ≠ hidden)
    (position : Position) : m.lookupVariable name position = n.lookupVariable name position := by
  rw [Machine.lookupVariable, Machine.lookupVariable, h.scope]
  exact h.scopes.lookupVariable_eq hname _ _

theorem lookupFunction_eq (h : SameBut hidden m n) (hkey : .called (name, arity) ≠ hidden)
    (position : Position) :
    m.lookupFunction name arity position = n.lookupFunction name arity position := by
  rw [Machine.lookupFunction, Machine.lookupFunction, h.scope]
  exact h.scopes.lookupFunction_eq hkey _ _

/-- Machines whose scopes are changed alike, without a method that mentions what is hidden. -/
theorem changeScopes (h : SameBut hidden m n)
    {change : Scopes Value Callable → Nat → Except Diagnostic (Scopes Value Callable)}
    (hchange : ∀ id, AnswersAlike (Scopes.SameBut hidden) (change m.scopes id) (change n.scopes id))
    (hignores : ∀ id, Answers (Scopes.All (fun _ => True) (Callable.Ignores hidden)) (fun _ => True)
      (change m.scopes id)) :
    AnswersAlike (SameBut hidden) (m.changeScopes change) (n.changeScopes change) := by
  have hignores := hignores m.scope
  have hchange := hchange m.scope
  rw [Machine.changeScopes, Machine.changeScopes, ← h.scope]
  generalize change m.scopes m.scope = first at hchange hignores ⊢
  generalize change n.scopes m.scope = second at hchange ⊢
  cases hchange with
  | ok hscopes => exact .ok ⟨hscopes, rfl, h.printer, hignores⟩
  | error d => exact .error d

theorem declare (h : SameBut hidden m n) (hname : .named name ≠ hidden) (value : Value)
    (position : Position) :
    AnswersAlike (SameBut hidden) (m.declare name value position) (n.declare name value position) :=
  h.changeScopes (fun id => h.scopes.defineVariable hname id value position)
    fun id => h.ignores.defineVariable (P := fun _ => True) id name trivial trivial

theorem declareInRoot (h : SameBut hidden m n) (hname : .named name ≠ hidden) (value : Value)
    (position : Position) :
    AnswersAlike (SameBut hidden) (m.declareInRoot name value position)
      (n.declareInRoot name value position) :=
  h.changeScopes (fun _ => h.scopes.defineVariable hname _ value position)
    fun _ => h.ignores.defineVariable (P := fun _ => True) _ name trivial trivial

/-- A method that does not mention what is hidden is defined on both machines or on none. -/
theorem declareFunction (h : SameBut hidden m n) (hkey : .called (name, arity) ≠ hidden)
    {f : Callable} (hf : f.Ignores hidden) (position : Position) :
    AnswersAlike (SameBut hidden) (m.declareFunction name arity f position)
      (n.declareFunction name arity f position) :=
  h.changeScopes (fun _ => h.scopes.defineFunction hkey _ f position)
    fun _ => h.ignores.defineFunction (P := fun _ => True) _ name arity hf trivial

theorem assign (h : SameBut hidden m n) (hname : .named name ≠ hidden) (value : Value)
    (position : Position) :
    AnswersAlike (SameBut hidden) (m.assign name value position) (n.assign name value position) :=
  h.changeScopes (fun id => h.scopes.assign hname id value position)
    fun id => h.ignores.assign (P := fun _ => True) id name trivial trivial

/-- A scope that is entered hides nothing yet. -/
theorem enter (h : SameBut hidden m n) (parent : Nat) :
    SameBut hidden (m.enter parent) (n.enter parent) :=
  ⟨h.scopes.child parent, h.scopes.depth_eq, h.printer, h.ignores.child parent⟩

theorem leave (h : SameBut hidden m n) (fresh back : Nat) :
    SameBut hidden (m.leave fresh back) (n.leave fresh back) :=
  ⟨h.scopes.release fresh, rfl, h.printer, h.ignores.release fresh⟩

end Machine.SameBut

/-! ## Runs -/

namespace Run

variable {R : Machine → Machine → Prop}

/-- A change that goes well on both machines or on none keeps runs alike. -/
theorem respects_change_of_alike {f : Machine → Except Diagnostic Machine}
    (hf : ∀ {m n}, R m n → AnswersAlike R (f m) (f n)) : (change f).Respects R := by
  refine respects_change fun {m n} h => ?_
  have hfmn := hf h
  generalize f m = first at hfmn ⊢
  generalize f n = second at hfmn ⊢
  cases hfmn with
  | ok hmn => exact .inr ⟨_, _, rfl, rfl, hmn⟩
  | error d => exact .inl ⟨d, rfl, rfl⟩

/-- What comes behind a run may make use of how that came to its result. -/
theorem Respects.bind_of_done {first : Run α} {next : α → Run β} (h : first.Respects R)
    (hnext : ∀ {result m mid}, first m = .done result mid → (next result).Respects R) :
    (first >>= next).Respects R :=
  fun m n hmn => (h m n hmn).bind (fun hdone hmid => hnext hdone _ _ hmid) id

/-- Both machines enter a scope and release it again. -/
theorem Respects.inScope {inner : Run α} (h : inner.Respects (Machine.SameBut hidden))
    (parent : Nat) : (Run.inScope parent inner).Respects (Machine.SameBut hidden) := by
  intro m n hmn
  have hinner := h _ _ (hmn.enter parent)
  have hfresh : m.scopes.fresh = n.scopes.fresh := hmn.scopes.depth_eq
  unfold Run.inScope
  rw [hfresh, hmn.scope]
  generalize inner (m.enter parent) = first at hinner ⊢
  generalize inner (n.enter parent) = second at hinner ⊢
  cases hinner with
  | done hlast => exact .done (hlast.leave _ _)
  | failed hlast => exact .failed (hlast.leave _ _)
  | exhausted => exact .exhausted

theorem Respects.inBlock_hidden {inner : Run α} (h : inner.Respects (Machine.SameBut hidden)) :
    (Run.inBlock inner).Respects (Machine.SameBut hidden) := fun m n hmn => by
  unfold Run.inBlock
  rw [hmn.scope]
  exact h.inScope _ m n hmn

theorem declare_hidden {name : String} (hname : .named name ≠ hidden) (value : Value)
    (position : Position) :
    (change (·.declare name value position)).Respects (Machine.SameBut hidden) :=
  respects_change_of_alike fun h => h.declare hname value position

end Run

/-! ## Expressions -/

variable {host : Host} {caller : Caller}

/-- A caller whose calls end alike, if they call nothing that is hidden. -/
def Caller.RespectsBut (hidden : Definition) (caller : Caller) : Prop :=
  ∀ name arguments position, .called (name, arguments.length) ≠ hidden →
    (caller name arguments position).Respects (Machine.SameBut hidden)

namespace Expr

open Run

mutual

/-- An expression that does not mention what is hidden is evaluated to the same end. -/
theorem evaluate_sameBut (hcaller : caller.RespectsBut hidden) : ∀ {e : Expr},
    hidden ∉ e.mentions → (e.evaluate host caller).Respects (Machine.SameBut hidden)
  | literal .., _ => respects_pure _
  | group inner _ _, he => evaluate_sameBut hcaller (e := inner) he
  | binary _ left right _ _, he => by
    rw [mentions, List.mem_append, not_or] at he
    exact (evaluate_sameBut hcaller he.1).bind fun _ =>
      evaluateBinary_respects (evaluate_sameBut hcaller he.2) _
  | name n _ span, he => by
    rw [mentions, List.mem_singleton] at he
    exact respects_look fun h => h.lookupVariable_eq (Ne.symm he) span.start
  | member receiver _ _ _, he =>
    (evaluate_sameBut hcaller (e := receiver) he).bind fun _ => respects_ofExcept _
  | call n arguments _ _, he => by
    rw [mentions, List.mem_cons, not_or] at he
    refine (evaluateAll_sameBut hcaller he.2).bind_of_done fun hvalues => ?_
    exact hcaller _ _ _ (length_of_evaluateAll hvalues ▸ Ne.symm he.1)
  | methodCall receiver _ arguments _ _, he => by
    rw [mentions, List.mem_append, not_or] at he
    exact (evaluate_sameBut hcaller he.1).bind fun _ =>
      (evaluateAll_sameBut hcaller he.2).bind fun _ => respects_ofExcept _

theorem evaluateAll_sameBut (hcaller : caller.RespectsBut hidden) : ∀ {es : List Expr},
    hidden ∉ allMentions es → (evaluateAll host caller es).Respects (Machine.SameBut hidden)
  | [], _ => respects_pure _
  | e :: es, hes => by
    rw [allMentions, List.mem_append, not_or] at hes
    exact (evaluate_sameBut hcaller hes.1).bind fun _ =>
      (evaluateAll_sameBut hcaller hes.2).bind fun _ => respects_pure _

end

variable {e : Expr}

theorem evaluateTruth_sameBut (hcaller : caller.RespectsBut hidden) (he : hidden ∉ e.mentions) :
    (e.evaluateTruth host caller).Respects (Machine.SameBut hidden) :=
  (evaluate_sameBut hcaller he).bind fun _ => respects_ofExcept _

theorem evaluateItems_sameBut (hcaller : caller.RespectsBut hidden) (he : hidden ∉ e.mentions) :
    (e.evaluateItems host caller).Respects (Machine.SameBut hidden) := by
  refine (evaluate_sameBut hcaller he).bind fun value => ?_
  split
  · exact respects_pure _
  · exact respects_fail _ _

/-- A value that may be missing. -/
theorem evaluateOption_sameBut (hcaller : caller.RespectsBut hidden) {value : Option Expr}
    (hvalue : hidden ∉ optionMentions value) :
    (value.elim (Run.pure .nil) (evaluate host caller)).Respects (Machine.SameBut hidden) := by
  cases value with
  | none => exact respects_pure _
  | some e => exact evaluate_sameBut hcaller hvalue

/-! ## Assignments -/

/-- The variable of a place is mentioned. -/
theorem mem_mentions_of_place? : ∀ {e : Expr} {place : Place}, e.place? = some place →
    .named place.name ∈ e.mentions
  | name n _ span, _, h => by
    obtain rfl := Option.some.inj h
    exact List.mem_singleton_self _
  | member receiver _ _ _, _, h => by
    obtain ⟨inner, hinner, rfl⟩ := Option.map_eq_some_iff.mp h
    have hmem : .named inner.name ∈ receiver.mentions := mem_mentions_of_place? hinner
    exact hmem

/-- The part of a place is changed on both machines, where its variable is. -/
theorem change_sameBut {place : Place} (hplace : .named place.name ≠ hidden)
    (f : Value → Except Diagnostic Value) :
    (place.change f).Respects (Machine.SameBut hidden) := by
  refine respects_change_of_alike fun {m n} h => ?_
  rw [h.lookupVariable_eq hplace]
  cases n.lookupVariable place.name place.position with
  | error d => exact .error d
  | ok value =>
    simp only [bind, Except.bind]
    cases Value.change f place.path value with
    | error d => exact .error d
    | ok changed => exact h.assign hplace changed place.position

theorem assign_sameBut (hcaller : caller.RespectsBut hidden) {target : Expr}
    (htarget : hidden ∉ target.mentions) (he : hidden ∉ e.mentions) :
    (target.assign host caller e).Respects (Machine.SameBut hidden) := by
  unfold assign
  split
  · next n _ span =>
    rw [mentions, List.mem_singleton] at htarget
    exact (evaluate_sameBut hcaller he).bind fun value =>
      respects_change_of_alike fun h => h.assign (Ne.symm htarget) value span.start
  · next receiver n _ span =>
    have hreceiver : hidden ∉ receiver.mentions := htarget
    refine (evaluate_sameBut hcaller he).bind fun value => ?_
    split
    · next place hplace =>
      refine change_sameBut (fun heq => hreceiver ?_) _
      exact heq ▸ mem_mentions_of_place? hplace
    · exact (evaluate_sameBut hcaller hreceiver).bind fun temporary =>
        (respects_ofExcept _).bind fun _ => respects_pure _
  · exact respects_fail _ _

end Expr

/-! ## Statements -/

namespace Stmt

open Run

variable {fuel : Nat}

mutual

/-- A statement that does not mention what is hidden is executed to the same end. -/
theorem execute_sameBut (hcaller : caller.RespectsBut hidden) : ∀ {stmt : Stmt},
    hidden ∉ stmt.mentions → (stmt.execute host caller fuel).Respects (Machine.SameBut hidden)
  | expression e _, hs =>
    (Expr.evaluate_sameBut hcaller (e := e) hs).bind fun _ => respects_pure _
  | declaration n _ value _ span, hs => by
    rw [mentions, List.mem_cons, not_or] at hs
    exact (Expr.evaluateOption_sameBut hcaller hs.2).bind fun found =>
      (declare_hidden (Ne.symm hs.1) found span.start).bind fun _ => respects_pure _
  | assignment target value _, hs => by
    rw [mentions, List.mem_append, not_or] at hs
    exact (Expr.assign_sameBut hcaller hs.1 hs.2).bind fun _ => respects_pure _
  | conditional condition thenBody elseBody _, hs => by
    rw [mentions, List.mem_append, List.mem_append, not_or, not_or] at hs
    refine (Expr.evaluateTruth_sameBut hcaller hs.1).bind fun b => ?_
    split
    · exact (executeAll_sameBut hcaller hs.2.1).inBlock_hidden
    · exact (executeAll_sameBut hcaller hs.2.2).inBlock_hidden
  | forEach n items body span, hs => by
    rw [mentions, List.mem_cons, List.mem_append, not_or, not_or] at hs
    refine (Expr.evaluateItems_sameBut hcaller hs.2.1).bind fun values => ?_
    refine Respects.forItems (fun item => Respects.inBlock_hidden ?_) values
    exact (declare_hidden (Ne.symm hs.1) item span.start).bind fun _ =>
      executeAll_sameBut hcaller hs.2.2
  | whileLoop condition body _, hs => by
    rw [mentions, List.mem_append, not_or] at hs
    exact (Expr.evaluateTruth_sameBut hcaller hs.1).rounds
      (executeAll_sameBut hcaller hs.2).inBlock_hidden fuel
  | returns value _, hs =>
    (Expr.evaluate_sameBut hcaller (e := value) hs).bind fun _ => respects_pure _

theorem executeAll_sameBut (hcaller : caller.RespectsBut hidden) : ∀ {stmts : List Stmt},
    hidden ∉ allMentions stmts →
      (executeAll host caller fuel stmts).Respects (Machine.SameBut hidden)
  | [], _ => respects_pure _
  | stmt :: stmts, hs => by
    rw [allMentions, List.mem_append, not_or] at hs
    exact (execute_sameBut hcaller hs.1).unlessReturned (executeAll_sameBut hcaller hs.2)

end

end Stmt

/-! ## Calls and programs -/

namespace Run

theorem print_sameBut (values : List Value) :
    (print values).Respects (Machine.SameBut hidden) := fun m n h => by
  unfold print
  rw [h.printer]
  exact .done ⟨h.scopes, h.scope, rfl, h.ignores⟩

/-- Parameters are mentioned by their method, so none of them is hidden. -/
theorem declareParameters_sameBut (position : Position) : ∀ {parameters : List (String × String)}
    (values : List Value), (∀ parameter ∈ parameters, .named parameter.1 ≠ hidden) →
      (declareParameters position parameters values).Respects (Machine.SameBut hidden)
  | parameter :: parameters, value :: values, h => by
    obtain ⟨hfirst, hothers⟩ := List.forall_mem_cons.mp h
    exact (declare_hidden hfirst value position).bind fun _ =>
      declareParameters_sameBut position values hothers
  | [], _, _ => respects_pure _
  | _ :: _, [], _ => respects_pure _

/-- Calls end alike, however deep they are nested. -/
theorem call_sameBut (host : Host) : ∀ fuel : Nat, Caller.RespectsBut hidden (call host fuel)
  | 0, _, _, _, _ => fun _ _ _ => .exhausted
  | fuel + 1, name, arguments, position, hkey => fun m n h => by
    rw [call]
    have hlook := respects_look
      (fun {m n} (h : Machine.SameBut hidden m n) => h.lookupFunction_eq hkey position) m n h
    refine hlook.bind (fun {callable m' n'} hlooked hmid => ?_) id
    obtain ⟨hfound, rfl⟩ := eq_of_look hlooked
    have hignores : callable.Ignores hidden := by
      have hanswers : Answers (Callable.Ignores hidden) (fun _ => True)
          (m'.lookupFunction name arguments.length position) :=
        Scopes.All.lookupFunction (P := fun _ => True) h.ignores _ name _ trivial
      rwa [hfound] at hanswers
    cases callable with
    | print => exact print_sameBut _ _ _ hmid
    | native answer => exact respects_ofExcept _ _ _ hmid
    | method method home =>
      have hbody : hidden ∉ Stmt.allMentions method.body := fun hbody =>
        hignores (List.mem_cons_of_mem _ (List.mem_append_right _ hbody))
      have hexecute : (Stmt.executeAll host (call host fuel) fuel method.body).Respects
          (Machine.SameBut hidden) := Stmt.executeAll_sameBut (call_sameBut host fuel) hbody
      have hinner := (declareParameters_sameBut method.span.start arguments
        (Method.ne_of_mem_parameters hignores)).bind fun _ => hexecute
      exact ((hinner.inScope home).bind fun flow => respects_pure _) _ _ hmid

theorem defineFields_sameBut (fuel : Nat) : ∀ {fields : List Field},
    hidden ∉ fields.flatMap Field.mentions →
      (defineFields host fuel fields).Respects (Machine.SameBut hidden)
  | [], _ => respects_pure _
  | f :: fields, h => by
    rw [List.flatMap_cons, List.mem_append, not_or, Field.mentions, List.mem_cons, not_or] at h
    refine (Expr.evaluateOption_sameBut (call_sameBut host fuel) h.1.2).bind fun value => ?_
    refine Respects.bind (respects_change_of_alike fun hmn => ?_) fun _ =>
      defineFields_sameBut fuel h.2
    exact hmn.declareInRoot (Ne.symm h.1.1) value f.span.start

/-- Methods that do not mention what is hidden are defined, so that calls of them are alike later.
-/
theorem defineMethods_sameBut : ∀ {methods : List Method},
    hidden ∉ methods.flatMap Method.mentions →
      (defineMethods methods).Respects (Machine.SameBut hidden)
  | [], _ => respects_pure _
  | method :: methods, h => by
    rw [List.flatMap_cons, List.mem_append, not_or] at h
    refine Respects.bind (respects_change_of_alike fun hmn => ?_) fun _ =>
      defineMethods_sameBut h.2
    refine hmn.declareFunction (fun heq => h.1 ?_) (f := .method method Scopes.root) h.1 _
    exact heq ▸ List.mem_cons_self ..

/-- A program that does not mention what is hidden is run to the same end. -/
theorem program_sameBut (host : Host) (fuel : Nat) {p : Program} (hp : hidden ∉ p.mentions) :
    (program host fuel p).Respects (Machine.SameBut hidden) := by
  rw [Program.mentions, List.mem_cons, List.mem_append, not_or, not_or] at hp
  exact (defineFields_sameBut fuel hp.2.1).bind fun _ =>
    (defineMethods_sameBut hp.2.2).bind fun _ => call_sameBut host fuel _ _ _ (Ne.symm hp.1)

end Run

end TeachLang
