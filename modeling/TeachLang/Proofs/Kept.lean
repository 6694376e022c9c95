import TeachLang.Proofs.Ensures
import TeachLang.Proofs.Related

/-!
# What runs keep

A run may stop at any depth, done or failed, and still leaves behind what stood on the machine
before it. `Machine.Keeps` says how much of it: the scopes with their parents, their functions and
the names of their variables, the place in which the program stands, and what was printed. Names may
be added in one scope, and functions in one, if any.

No tree has to be checked for this, and nothing is asked of the machine but that it has a root: what
a run adds it adds behind all that was there, and releasing the scope that it entered takes all of
it back. So there is one rule for each way in which runs are put together, and `Run.inScope` is the
only one with something to show.
-/

namespace TeachLang

/-! ## Machines -/

/-- What a scope still is after a run: it is nested as before, and has the same names and functions
in the same order, with others behind them only if `declares` or `defines` allow it. -/
structure Scope.Kept (declares defines : Prop) (old new : Scope Value Callable) : Prop where
  /-- how it is nested -/
  parent : new.parent = old.parent
  /-- the names of its variables -/
  names : ∃ added, new.bindings.map Prod.fst = old.bindings.map Prod.fst ++ added ∧
    (added ≠ [] → declares)
  /-- its functions; those that are added are methods of the root -/
  functions : ∃ added, new.functions = old.functions ++ added ∧ (added ≠ [] → defines) ∧
    ∀ f ∈ added, ∃ method, f.2 = .method method Scopes.root

/-- What a machine still is after a run that may declare variables in one scope and define functions
in one. -/
structure Machine.Keeps (declares defines : Option Nat) (m last : Machine) : Prop where
  /-- the scope in which the program stands -/
  scope : last.scope = m.scope
  /-- the number of live scopes -/
  depth : last.depth = m.depth
  /-- the live scopes -/
  scopes : ∀ {id old}, m.scopes.get? id = some old → ∃ new, last.scopes.get? id = some new ∧
    Scope.Kept (declares = some id) (defines = some id) old new
  /-- what was printed -/
  printed : ∃ more, last.printed = m.printed ++ more

namespace Scope

variable {declares defines declares' defines' : Prop} {a b c : Scope Value Callable}

theorem Kept.refl (a : Scope Value Callable) : Kept declares defines a a :=
  ⟨rfl, ⟨[], by simp⟩, ⟨[], by simp⟩⟩

/-- What is added later comes behind what was added before. -/
theorem Kept.trans (hab : Kept declares defines a b) (hbc : Kept declares defines b c) :
    Kept declares defines a c := by
  obtain ⟨hparent, ⟨names, hnames, hdeclares⟩, ⟨fs, hfs, hdefines, hroot⟩⟩ := hab
  obtain ⟨hparent', ⟨names', hnames', hdeclares'⟩, ⟨gs, hgs, hdefines', hroot'⟩⟩ := hbc
  refine ⟨hparent'.trans hparent, ⟨names ++ names', ?_, fun hne => ?_⟩,
    ⟨fs ++ gs, ?_, fun hne => ?_, ?_⟩⟩
  · rw [hnames', hnames, List.append_assoc]
  · rw [ne_eq, List.append_eq_nil_iff, not_and_or] at hne
    exact hne.elim hdeclares hdeclares'
  · rw [hgs, hfs, List.append_assoc]
  · rw [ne_eq, List.append_eq_nil_iff, not_and_or] at hne
    exact hne.elim hdefines hdefines'
  · exact List.forall_mem_append.mpr ⟨hroot, hroot'⟩

theorem Kept.mono (h : Kept declares defines a b) (hdeclares : declares → declares')
    (hdefines : defines → defines') : Kept declares' defines' a b := by
  obtain ⟨hparent, ⟨names, hnames, hnew⟩, ⟨fs, hfs, hnew', hroot⟩⟩ := h
  exact ⟨hparent, ⟨names, hnames, fun hne => hdeclares (hnew hne)⟩,
    ⟨fs, hfs, fun hne => hdefines (hnew' hne), hroot⟩⟩

end Scope

namespace Machine

variable {declares defines declares' defines' : Option Nat} {m mid last : Machine}

theorem Keeps.refl (m : Machine) : m.Keeps declares defines m :=
  ⟨rfl, rfl, fun h => ⟨_, h, Scope.Kept.refl _⟩, "", by simp⟩

/-- Runs one after the other add what each of them adds. -/
theorem Keeps.trans (h : m.Keeps declares defines mid) (h' : mid.Keeps declares defines last) :
    m.Keeps declares defines last := by
  refine ⟨h'.scope.trans h.scope, h'.depth.trans h.depth, fun hold => ?_, ?_⟩
  · obtain ⟨new, hnew, hkept⟩ := h.scopes hold
    obtain ⟨newer, hnewer, hkept'⟩ := h'.scopes hnew
    exact ⟨newer, hnewer, hkept.trans hkept'⟩
  · obtain ⟨more, hmore⟩ := h.printed
    obtain ⟨more', hmore'⟩ := h'.printed
    exact ⟨more ++ more', by rw [hmore', hmore, String.append_assoc]⟩

theorem Keeps.mono (h : m.Keeps declares defines last)
    (hdeclares : ∀ id, declares = some id → declares' = some id)
    (hdefines : ∀ id, defines = some id → defines' = some id) :
    m.Keeps declares' defines' last := by
  refine ⟨h.scope, h.depth, fun hold => ?_, h.printed⟩
  obtain ⟨new, hnew, hkept⟩ := h.scopes hold
  exact ⟨new, hnew, hkept.mono (hdeclares _) (hdefines _)⟩

/-- A change of one scope keeps all others. -/
theorem keeps_modify {home : Nat} {change : Scope Value Callable → Scope Value Callable}
    (h : ∀ scope, Scope.Kept (declares = some home) (defines = some home) scope (change scope)) :
    m.Keeps declares defines { m with scopes := ⟨m.scopes.scopes.modify home change⟩ } := by
  refine ⟨rfl, Array.size_modify, fun {id old} hold => ?_, "", by simp [printed]⟩
  change ∃ new, (m.scopes.scopes.modify home change)[id]? = some new ∧ _
  have hold : m.scopes.scopes[id]? = some old := hold
  rw [Array.getElem?_modify, hold]
  split
  · next hid =>
    subst hid
    exact ⟨change old, rfl, h old⟩
  · exact ⟨old, rfl, Scope.Kept.refl old⟩

/-- A declaration adds to the scope in which the program stands. -/
theorem keeps_declare {name : String} {value : Value} {position : Position}
    (h : m.declare name value position = .ok last) : m.Keeps (some m.scope) none last := by
  obtain ⟨scopes, scope, printer⟩ := m
  rw [declare, changeScopes] at h
  split at h
  · next changed hchanged =>
    obtain rfl := Except.ok.inj h
    obtain ⟨-, rfl⟩ := Scopes.eq_extend_of_defineVariable hchanged
    exact keeps_modify fun old =>
      ⟨rfl, ⟨[name], by simp, fun _ => rfl⟩, ⟨[], by simp, by simp, by simp⟩⟩
  · cases h

/-- A field adds to the root. -/
theorem keeps_declareInRoot {name : String} {value : Value} {position : Position}
    (h : m.declareInRoot name value position = .ok last) :
    m.Keeps (some Scopes.root) none last := by
  obtain ⟨scopes, scope, printer⟩ := m
  rw [declareInRoot, changeScopes] at h
  split at h
  · next changed hchanged =>
    obtain rfl := Except.ok.inj h
    obtain ⟨-, rfl⟩ := Scopes.eq_extend_of_defineVariable hchanged
    exact keeps_modify fun old =>
      ⟨rfl, ⟨[name], by simp, fun _ => rfl⟩, ⟨[], by simp, by simp, by simp⟩⟩
  · cases h

/-- A method of a program adds to the functions of the root. -/
theorem keeps_declareMethod {name : String} {arity : Nat} {method : Method} {position : Position}
    (h : m.declareFunction name arity (.method method Scopes.root) position = .ok last) :
    m.Keeps none (some Scopes.root) last := by
  obtain ⟨scopes, scope, printer⟩ := m
  rw [declareFunction, changeScopes] at h
  split at h
  · next changed hchanged =>
    obtain rfl := Except.ok.inj h
    obtain ⟨-, rfl⟩ := Scopes.eq_addFunction_of_defineFunction hchanged
    exact keeps_modify fun old =>
      ⟨rfl, ⟨[], by simp, by simp⟩, ⟨[_], Scope.functions_addFunction .., fun _ => rfl, by simp⟩⟩
  · cases h

/-- An assignment adds nothing: the name has been there before. -/
theorem keeps_assign {name : String} {value : Value} {position : Position}
    (h : m.assign name value position = .ok last) : m.Keeps none none last := by
  obtain ⟨scopes, scope, printer⟩ := m
  rw [assign, changeScopes] at h
  split at h
  · next changed hchanged =>
    obtain rfl := Except.ok.inj h
    rw [Scopes.assign] at hchanged
    split at hchanged
    · obtain rfl := Except.ok.inj hchanged
      exact keeps_modify fun old =>
        ⟨rfl, ⟨[], by simp [Scope.map_fst_rebind], by simp⟩, ⟨[], by simp, by simp, by simp⟩⟩
    · cases hchanged
  · cases h

/-- Whatever is done in a new scope, all others are kept behind it. -/
theorem Keeps.leave {parent : Nat} (hm : 0 < m.depth)
    (h : (m.enter parent).Keeps (some m.scopes.fresh) none last) :
    m.Keeps declares defines (last.leave m.scopes.fresh m.scope) := by
  have hget := last.scopes.get?_release hm
  have hdepth : last.depth = m.depth + 1 := h.depth.trans (Scopes.depth_child ..)
  refine ⟨rfl, ?_, fun {id old} hold => ?_, h.printed⟩
  · change (last.scopes.scopes.shrink (max m.depth 1)).size = m.depth
    have hsize : last.scopes.scopes.size = m.depth + 1 := hdepth
    rw [Array.size_shrink, hsize]
    omega
  · have hid : id < m.depth := Scopes.lt_of_get?_eq_some hold
    have hentered : (m.enter parent).scopes.get? id = some old := by
      change (m.scopes.child parent).get? id = some old
      have hne : id ≠ m.scopes.depth := Nat.ne_of_lt hid
      rw [Scopes.get?_child, if_neg hne, hold]
    obtain ⟨new, hnew, hkept⟩ := h.scopes hentered
    refine ⟨new, (hget id).trans ((if_pos hid).trans hnew), hkept.mono ?_ ?_⟩
    · -- the only scope that may have got names is the one that is released
      intro hfresh
      exact absurd (Option.some.inj hfresh) (Nat.ne_of_gt hid)
    · exact fun hsome => nomatch hsome

end Machine

/-! ## Runs -/

namespace Run

variable {α β : Type} {declares declares' : Nat → Option Nat} {defines defines' : Option Nat}

/-- What holds wherever a run ends, done or failed. -/
def Leaves (r : Run α) (m : Machine) (P : Machine → Prop) : Prop :=
  r.Ensures m (fun _ last => P last) (fun _ last => P last)

/-- A run on a machine with a root keeps it, whether it is done or fails. Which scope it may declare
variables in depends on the one in which the program stands. -/
def Stays (declares : Nat → Option Nat) (defines : Option Nat) (r : Run α) : Prop :=
  ∀ m : Machine, 0 < m.depth → r.Leaves m (m.Keeps (declares m.scope) defines)

theorem Leaves.mono {r : Run α} {m : Machine} {P Q : Machine → Prop} (h : r.Leaves m P)
    (hPQ : ∀ last, P last → Q last) : r.Leaves m Q :=
  Ensures.mono h (fun _ => hPQ) fun _ => hPQ

theorem Stays.mono {r : Run α} (h : r.Stays declares defines)
    (hdeclares : ∀ scope id, declares scope = some id → declares' scope = some id)
    (hdefines : ∀ id, defines = some id → defines' = some id) : r.Stays declares' defines' :=
  fun m hm => (h m hm).mono fun _ hkeeps => hkeeps.mono (hdeclares _) hdefines

/-- What declares and defines nothing stays where less is asked for. -/
theorem Stays.weaken {r : Run α} (h : r.Stays (fun _ => none) none) : r.Stays declares defines :=
  h.mono (fun _ _ hsome => nomatch hsome) fun _ hsome => nomatch hsome

/-- Two ends, one after another. -/
theorem Leaves.trans {r : Run α} {m mid : Machine} (hmid : m.Keeps (declares m.scope) defines mid)
    (h : r.Leaves mid (mid.Keeps (declares mid.scope) defines)) :
    r.Leaves mid (m.Keeps (declares m.scope) defines) := by
  rw [hmid.scope] at h
  exact h.mono fun _ => hmid.trans

theorem depth_pos {m mid : Machine} {declares defines : Option Nat} (hm : 0 < m.depth)
    (h : m.Keeps declares defines mid) : 0 < mid.depth := by rwa [h.depth]

/-- A run that does nothing leaves everything as it is. -/
theorem stays_pure (result : α) : (Run.pure result).Stays declares defines :=
  fun m _ => ensures_pure (Machine.Keeps.refl m)

theorem stays_ofExcept (result : Except Diagnostic α) :
    (ofExcept result).Stays declares defines := fun m _ => by
  cases result <;> exact Machine.Keeps.refl m

theorem stays_fail (fault : Fault) (position : Position) :
    (fail fault position : Run α).Stays declares defines := fun m _ => Machine.Keeps.refl m

theorem stays_exhausted : (exhausted : Run α).Stays declares defines := fun _ _ => trivial

theorem stays_look (f : Machine → Except Diagnostic α) : (look f).Stays declares defines :=
  fun m hm => stays_ofExcept (f m) m hm

/-- A change of the machine stays within what it may add if it does where it goes well; otherwise
the machine is as it was. -/
theorem stays_change {f : Machine → Except Diagnostic Machine}
    (h : ∀ {m last}, f m = .ok last → m.Keeps (declares m.scope) defines last) :
    (change f).Stays declares defines := fun m _ => by
  refine ensures_change ?_
  cases hf : f m with
  | ok last => exact h hf
  | error d => exact Machine.Keeps.refl m

/-- If the first run fails, what it left behind is what the whole run leaves. -/
theorem Stays.bind {first : Run α} {next : α → Run β} (h : first.Stays declares defines)
    (hnext : ∀ result, (next result).Stays declares defines) :
    (first >>= next).Stays declares defines := fun m hm => by
  refine Ensures.bind (Ensures.mono (h m hm) (fun result mid hmid => ?_) fun _ _ hfailed => hfailed)
  exact Leaves.trans hmid (hnext result mid (depth_pos hm hmid))

/-- What is added in a scope of its own is gone with it, done or failed. This is the only rule that
rests on releasing. -/
theorem Stays.inScope {inner : Run α} (h : inner.Stays some none) (parent : Nat) :
    (inScope parent inner).Stays (fun _ => none) none := fun m hm => by
  have hentered : 0 < (m.enter parent).depth := by
    change 0 < (m.scopes.child parent).depth
    rw [Scopes.depth_child]
    exact Nat.succ_pos _
  exact ensures_inScope (Leaves.mono (h _ hentered) fun _ hkeeps => hkeeps.leave hm)

theorem Stays.inBlock {inner : Run α} (h : inner.Stays some none) :
    (inBlock inner).Stays (fun _ => none) none := fun m hm => h.inScope m.scope m hm

theorem Stays.unlessReturned {first next : Run Flow} (h : first.Stays declares defines)
    (hnext : next.Stays declares defines) :
    (first.unlessReturned next).Stays declares defines := fun m hm => by
  refine ensures_unlessReturned (Ensures.mono (h m hm) (fun flow mid hmid => ?_)
    fun _ _ hfailed => hfailed)
  cases flow with
  | next => exact Leaves.trans hmid (hnext mid (depth_pos hm hmid))
  | returned value => exact hmid

/-- Rounds add what one round does, any number of times. -/
theorem Stays.rounds {condition : Run Bool} {round : Run Flow}
    (hcondition : condition.Stays declares defines) (hround : round.Stays declares defines)
    (left : Nat) : (rounds condition round left).Stays declares defines := fun m hm => by
  refine ensures_rounds (m.Keeps (declares m.scope) defines) (fun mid hmid => ?_)
    (fun mid hmid => ?_) left m (Machine.Keeps.refl m)
  · refine Ensures.mono (Leaves.trans hmid (hcondition mid (depth_pos hm hmid)))
      (fun b last hlast => ⟨hlast, fun _ => hlast⟩) fun _ _ hfailed => hfailed
  · refine Ensures.mono (Leaves.trans hmid (hround mid (depth_pos hm hmid)))
      (fun flow last hlast => ?_) fun _ _ hfailed => hfailed
    cases flow <;> exact hlast

theorem Stays.forItems {round : Value → Run Flow}
    (hround : ∀ item, (round item).Stays declares defines) :
    ∀ items, (forItems round items).Stays declares defines
  | [] => stays_pure _
  | item :: items => (hround item).unlessReturned (Stays.forItems hround items)

end Run

/-! ## Expressions -/

variable {host : Host} {caller : Caller}

/-- A caller that declares and defines nothing. -/
def Caller.Stays (caller : Caller) : Prop :=
  ∀ name arguments position, (caller name arguments position).Stays (fun _ => none) none

namespace Expr

open Run

theorem evaluateBinary_stays {operator : Operator} {left : Value} {right : Run Value}
    (h : right.Stays (fun _ => none) none) (position : Position) :
    (evaluateBinary operator left right position).Stays (fun _ => none) none := by
  have htruth : (do
      let value ← right
      let b ← Run.ofExcept (value.truth position)
      return Value.boolean b : Run Value).Stays (fun _ => none) none :=
    h.bind fun value => (stays_ofExcept _).bind fun b => stays_pure _
  unfold evaluateBinary
  split
  · refine (stays_ofExcept _).bind fun b => ?_
    split
    · exact htruth
    · exact stays_pure _
  · refine (stays_ofExcept _).bind fun b => ?_
    split
    · exact stays_pure _
    · exact htruth
  · exact h.bind fun value => stays_ofExcept _

mutual

/-- Evaluating an expression declares and defines nothing. -/
theorem evaluate_stays (hcaller : caller.Stays) : ∀ e : Expr,
    (e.evaluate host caller).Stays (fun _ => none) none
  | literal .. => stays_pure _
  | group inner .. => evaluate_stays hcaller inner
  | binary _ left right _ _ =>
    (evaluate_stays hcaller left).bind fun _ =>
      evaluateBinary_stays (evaluate_stays hcaller right) _
  | name .. => stays_look _
  | member receiver .. => (evaluate_stays hcaller receiver).bind fun _ => stays_ofExcept _
  | call _ arguments .. => (evaluateAll_stays hcaller arguments).bind fun _ => hcaller _ _ _
  | methodCall receiver _ arguments .. =>
    (evaluate_stays hcaller receiver).bind fun _ =>
      (evaluateAll_stays hcaller arguments).bind fun _ => stays_ofExcept _

theorem evaluateAll_stays (hcaller : caller.Stays) : ∀ es : List Expr,
    (evaluateAll host caller es).Stays (fun _ => none) none
  | [] => stays_pure _
  | e :: es =>
    (evaluate_stays hcaller e).bind fun _ =>
      (evaluateAll_stays hcaller es).bind fun _ => stays_pure _

end

theorem evaluateTruth_stays (hcaller : caller.Stays) (e : Expr) :
    (e.evaluateTruth host caller).Stays (fun _ => none) none :=
  (e.evaluate_stays hcaller).bind fun _ => stays_ofExcept _

theorem evaluateItems_stays (hcaller : caller.Stays) (e : Expr) :
    (e.evaluateItems host caller).Stays (fun _ => none) none := by
  refine (e.evaluate_stays hcaller).bind fun value => ?_
  split
  · exact stays_pure _
  · exact stays_fail _ _

end Expr

theorem Place.change_stays (place : Place) (f : Value → Except Diagnostic Value) :
    (place.change f).Stays (fun _ => none) none := by
  refine Run.stays_change fun {m last} h => ?_
  cases hlookup : m.lookupVariable place.name place.position with
  | error d =>
    rw [hlookup] at h
    cases h
  | ok value =>
    rw [hlookup] at h
    change ((Value.change f place.path value).bind fun changed =>
      m.assign place.name changed place.position) = .ok last at h
    cases hchanged : Value.change f place.path value with
    | error d =>
      rw [hchanged] at h
      cases h
    | ok changed =>
      rw [hchanged] at h
      exact Machine.keeps_assign h

theorem Expr.assign_stays (hcaller : caller.Stays) (target e : Expr) :
    (target.assign host caller e).Stays (fun _ => none) none := by
  unfold assign
  split
  · exact (e.evaluate_stays hcaller).bind fun value => Run.stays_change Machine.keeps_assign
  · refine (e.evaluate_stays hcaller).bind fun value => ?_
    split
    · exact Place.change_stays _ _
    · exact (Expr.evaluate_stays hcaller _).bind fun temporary =>
        (Run.stays_ofExcept _).bind fun _ => Run.stays_pure _
  · exact Run.stays_fail _ _

/-! ## Statements -/

namespace Run

/-- The first value of a variable. -/
theorem value_stays (hcaller : caller.Stays) (value : Option Expr) :
    (value.elim (Run.pure .nil) (Expr.evaluate host caller)).Stays (fun _ => none) none := by
  cases value with
  | none => exact stays_pure _
  | some e => exact e.evaluate_stays hcaller

/-- A statement declares in the scope in which it stands. -/
theorem declare_stays (name : String) (value : Value) (position : Position) :
    (change (·.declare name value position)).Stays some none :=
  stays_change Machine.keeps_declare

end Run

namespace Stmt

open Run

variable {fuel : Nat}

mutual

/-- Executing a statement declares variables in the scope in which the program stands, and nowhere
else. -/
theorem execute_stays (hcaller : caller.Stays) : ∀ stmt : Stmt,
    (stmt.execute host caller fuel).Stays some none
  | expression e _ => (e.evaluate_stays hcaller).weaken.bind fun _ => stays_pure _
  | declaration _ _ value _ _ =>
    (value_stays hcaller value).weaken.bind fun _ =>
      (declare_stays _ _ _).bind fun _ => stays_pure _
  | assignment target value _ =>
    (target.assign_stays hcaller value).weaken.bind fun _ => stays_pure _
  | conditional condition thenBody elseBody _ => by
    refine (condition.evaluateTruth_stays hcaller).weaken.bind fun b => ?_
    split
    · exact (executeAll_stays hcaller thenBody).inBlock.weaken
    · exact (executeAll_stays hcaller elseBody).inBlock.weaken
  | forEach _ items body _ =>
    ((items.evaluateItems_stays hcaller).bind fun values =>
      Stays.forItems (fun _ => Stays.inBlock ((declare_stays _ _ _).bind fun _ =>
        executeAll_stays hcaller body)) values).weaken
  | whileLoop condition body _ =>
    ((condition.evaluateTruth_stays hcaller).rounds
      (executeAll_stays hcaller body).inBlock fuel).weaken
  | returns value _ => (value.evaluate_stays hcaller).weaken.bind fun _ => stays_pure _

/-- So do the statements of a block one after the other. -/
theorem executeAll_stays (hcaller : caller.Stays) : ∀ stmts : List Stmt,
    (executeAll host caller fuel stmts).Stays some none
  | [] => stays_pure _
  | stmt :: stmts =>
    (execute_stays hcaller stmt).unlessReturned (executeAll_stays hcaller stmts)

end

end Stmt

/-! ## Programs -/

namespace Printer

/-- More text behind what is kept. -/
def append (more : String) : Printer → Printer
  | keep text => keep (text ++ more)
  | discard => discard

/-- To print a line is to append it with its newline. -/
theorem printLine_eq (line : String) (printer : Printer) :
    printer.printLine line = printer.append (line ++ "\n") := by
  cases printer <;> simp [printLine, append, String.append_assoc]

theorem append_append (first second : String) (printer : Printer) :
    (printer.append first).append second = printer.append (first ++ second) := by
  cases printer <;> simp [append, String.append_assoc]

theorem append_empty (printer : Printer) : printer.append "" = printer := by
  cases printer <;> simp [append]

/-- What was printed before is still there. -/
theorem exists_text_append (more : String) (printer : Printer) :
    ∃ kept, (printer.append more).text = printer.text ++ kept := by
  cases printer with
  | keep text => exact ⟨more, rfl⟩
  | discard => exact ⟨"", rfl⟩

end Printer

theorem Machine.keeps_print (m : Machine) (more : String) :
    m.Keeps none none { m with printer := m.printer.append more } :=
  ⟨rfl, rfl, fun h => ⟨_, h, Scope.Kept.refl _⟩, Printer.exists_text_append more m.printer⟩

namespace Run

/-- The lines that are printed for values. -/
def lines : List Value → String
  | [] => ""
  | value :: values => value.text ++ "\n" ++ lines values

/-- Lines one after the other are one text. -/
theorem foldl_printLine (values : List Value) (printer : Printer) :
    values.foldl (fun printer value => printer.printLine value.text) printer =
      printer.append (lines values) := by
  induction values generalizing printer with
  | nil => exact printer.append_empty.symm
  | cons value values ih =>
    rw [List.foldl_cons, ih, Printer.printLine_eq, Printer.append_append]
    rfl

theorem print_stays (values : List Value) : (print values).Stays (fun _ => none) none := by
  intro m _
  unfold Leaves Ensures print
  simp only [foldl_printLine]
  exact m.keeps_print (lines values)

/-- Parameters are declared in the scope of the call. -/
theorem declareParameters_stays (position : Position) :
    ∀ (parameters : List (String × String)) (values : List Value),
      (declareParameters position parameters values).Stays some none
  | _ :: parameters, _ :: values =>
    (declare_stays _ _ _).bind fun _ => declareParameters_stays position parameters values
  | [], _ => stays_pure _
  | _ :: _, [] => stays_pure _

/-- Calling a function declares and defines nothing. -/
theorem call_stays (host : Host) : ∀ fuel, Caller.Stays (call host fuel)
  | 0, _, _, _ => stays_exhausted
  | fuel + 1, name, arguments, position => by
    refine (stays_look _).bind fun callable => ?_
    split
    · exact print_stays _
    · exact stays_ofExcept _
    · refine Stays.bind (Stays.inScope ?_ _) fun flow => stays_pure _
      exact (declareParameters_stays _ _ _).bind fun _ =>
        Stmt.executeAll_stays (call_stays host fuel) _

/-- Fields are declared in the root, wherever the program stands. -/
theorem defineFields_stays (host : Host) (fuel : Nat) : ∀ fields,
    (defineFields host fuel fields).Stays (fun _ => some Scopes.root) none
  | [] => stays_pure _
  | field :: fields =>
    (value_stays (call_stays host fuel) field.value).weaken.bind fun _ =>
      (stays_change Machine.keeps_declareInRoot).bind fun _ => defineFields_stays host fuel fields

/-- Methods are defined in the root. -/
theorem defineMethods_stays : ∀ methods,
    (defineMethods methods).Stays (fun _ => none) (some Scopes.root)
  | [] => stays_pure _
  | _ :: methods =>
    (stays_change Machine.keeps_declareMethod).bind fun _ => defineMethods_stays methods

/-- Running a program declares variables and defines methods in the root, and nowhere else. -/
theorem program_stays (host : Host) (fuel : Nat) (p : Program) :
    (program host fuel p).Stays (fun _ => some Scopes.root) (some Scopes.root) := by
  have hfields : (defineFields host fuel p.fields).Stays (fun _ => some Scopes.root)
      (some Scopes.root) :=
    (defineFields_stays host fuel p.fields).mono (fun _ _ h => h) fun _ hsome => nomatch hsome
  have hmethods : (defineMethods p.methods).Stays (fun _ => some Scopes.root)
      (some Scopes.root) :=
    (defineMethods_stays p.methods).mono (fun _ _ hsome => nomatch hsome) fun _ h => h
  exact hfields.bind fun _ => hmethods.bind fun _ => (call_stays host fuel _ _ _).weaken

end Run

end TeachLang
