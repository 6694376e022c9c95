import TeachLang.Proofs.Scopes
import TeachLang.Proofs.Verdicts
import TeachLang.Run.Program

/-!
# Where runs fail

A program that gets nothing from a host computes with constants alone: it has no way to make a
record or a series. So its runs fail at positions of the program, which are the starts of
expressions and statements, those of methods whose parameters clash, and its end where the entry is
looked for; what a host could do wrong without a position never comes up.

With that, every diagnostic about a text points into it, from its first character to the last step
of its run.
-/

namespace TeachLang

/-! ## Scopes -/

section Scopes

variable {V F : Type} {good : V → Prop} {fit : F → Prop}

/-- A scope with variables and functions as described. -/
structure Scope.All (good : V → Prop) (fit : F → Prop) (scope : Scope V F) : Prop where
  /-- its variables -/
  bindings : ∀ binding ∈ scope.bindings, good binding.2
  /-- its functions -/
  functions : ∀ f ∈ scope.functions, fit f.2

theorem Scope.all_empty (parent : Option Nat) : (empty parent : Scope V F).All good fit :=
  ⟨nofun, nofun⟩

/-- A value that is good takes the place of another. -/
theorem Scope.forall_mem_rebind {name : String} {value : V} (hvalue : good value) :
    ∀ {bindings : List (String × V)}, (∀ binding ∈ bindings, good binding.2) →
      ∀ binding ∈ rebind name value bindings, good binding.2
  | [], _ => nofun
  | (n, v) :: others, h => by
    obtain ⟨hfirst, hothers⟩ := List.forall_mem_cons.mp h
    rw [rebind]
    split
    · exact List.forall_mem_cons.mpr ⟨hvalue, hothers⟩
    · exact List.forall_mem_cons.mpr ⟨hfirst, forall_mem_rebind hvalue hothers⟩

namespace Scopes

/-- Live scopes with variables and functions as described. -/
def All (good : V → Prop) (fit : F → Prop) (s : Scopes V F) : Prop :=
  ∀ id scope, s.get? id = some scope → scope.All good fit

variable {s : Scopes V F} {P : Position → Prop} {position : Position}

theorem All.ofFunctions {functions : List ((String × Nat) × F)} (h : ∀ f ∈ functions, fit f.2) :
    (ofFunctions functions : Scopes V F).All good fit := by
  intro id scope hscope
  obtain rfl := List.mem_singleton.mp (Array.mem_toList_iff.mpr (Array.mem_of_getElem? hscope))
  exact ⟨nofun, h⟩

/-- A scope that is new holds nothing. -/
theorem All.child (h : s.All good fit) (parent : Nat) : (s.child parent).All good fit := by
  intro id scope hscope
  rw [get?_child] at hscope
  split at hscope
  · obtain rfl := Option.some.inj hscope
    exact Scope.all_empty _
  · exact h id scope hscope

theorem All.release (h : s.All good fit) (place : Nat) : (s.release place).All good fit := by
  intro id scope hscope
  have hplace : s.release place = s.release (max place 1) := by simp [Scopes.release]
  rw [hplace, get?_release (by omega)] at hscope
  split at hscope
  · exact h id scope hscope
  · cases hscope

theorem All.modify (h : s.All good fit) (home : Nat) {change : Scope V F → Scope V F}
    (hchange : ∀ scope, scope.All good fit → (change scope).All good fit) :
    (⟨s.scopes.modify home change⟩ : Scopes V F).All good fit := by
  intro id scope hscope
  have hmodify : (s.scopes.modify home change)[id]? = some scope := hscope
  rw [Array.getElem?_modify] at hmodify
  split at hmodify
  · obtain ⟨old, hold, rfl⟩ := Option.map_eq_some_iff.mp hmodify
    exact hchange old (h id old hold)
  · exact h id scope hmodify

/-- What is found is good, or the name is at fault where it stands. -/
theorem All.lookupVariable (h : s.All good fit) (id : Nat) (n : String) (hP : P position) :
    Answers good (fun d => P d.position) (s.lookupVariable id n position) := by
  rw [Scopes.lookupVariable]
  split
  · next value hvalue =>
    obtain ⟨home, -, hhome⟩ := List.exists_of_findSome?_eq_some hvalue
    obtain ⟨scope, hscope, hlookup⟩ := Option.bind_eq_some_iff.mp hhome
    rw [scope.get?_variableTable] at hlookup
    obtain ⟨front, back, hbindings, -⟩ := List.lookup_eq_some_iff.mp hlookup
    exact (h home scope hscope).bindings (n, value) (by simp [hbindings])
  · exact hP

theorem All.lookupFunction (h : s.All good fit) (id : Nat) (n : String) (arity : Nat)
    (hP : P position) :
    Answers fit (fun d => P d.position) (s.lookupFunction id n arity position) := by
  rw [Scopes.lookupFunction]
  split
  · next f hf =>
    obtain ⟨home, -, hhome⟩ := List.exists_of_findSome?_eq_some hf
    obtain ⟨scope, hscope, hlookup⟩ := Option.bind_eq_some_iff.mp hhome
    rw [scope.get?_functionTable] at hlookup
    obtain ⟨front, back, hfunctions, -⟩ := List.lookup_eq_some_iff.mp hlookup
    exact (h home scope hscope).functions ((n, arity), f) (by simp [hfunctions])
  · exact hP

/-- Something good is added, or the name is at fault where it stands. -/
theorem All.defineVariable (h : s.All good fit) (id : Nat) (n : String) {value : V}
    (hvalue : good value) (hP : P position) :
    Answers (All good fit) (fun d => P d.position) (s.defineVariable id n value position) := by
  rw [Scopes.defineVariable]
  split
  · exact hP
  · refine h.modify id fun scope hscope => ⟨?_, hscope.functions⟩
    rw [Scope.bindings_addVariable]
    exact List.forall_mem_append.mpr ⟨hscope.bindings, List.forall_mem_singleton.mpr hvalue⟩

theorem All.defineFunction (h : s.All good fit) (id : Nat) (n : String) (arity : Nat) {f : F}
    (hf : fit f) (hP : P position) :
    Answers (All good fit) (fun d => P d.position) (s.defineFunction id n arity f position) := by
  rw [Scopes.defineFunction]
  split
  · exact hP
  · refine h.modify id fun scope hscope => ⟨hscope.bindings, ?_⟩
    rw [Scope.functions_addFunction]
    exact List.forall_mem_append.mpr ⟨hscope.functions, List.forall_mem_singleton.mpr hf⟩

/-- Something good takes the place of what was there, or the name is at fault where it stands. -/
theorem All.assign (h : s.All good fit) (id : Nat) (n : String) {value : V}
    (hvalue : good value) (hP : P position) :
    Answers (All good fit) (fun d => P d.position) (s.assign id n value position) := by
  rw [Scopes.assign]
  split
  · refine h.modify _ fun scope hscope => ⟨?_, hscope.functions⟩
    rw [Scope.bindings_setVariable]
    exact Scope.forall_mem_rebind hvalue hscope.bindings
  · exact hP

end Scopes

end Scopes

variable {P : Position → Prop} {position : Position}

/-! ## Values -/

namespace Value

/-- Whether a value is a constant. -/
def IsAtom : Value → Prop
  | atom _ _ => True
  | _ => False

theorem truth_answers (value : Value) (hP : P position) :
    Answers (fun _ => True) (fun d => P d.position) (value.truth position) := by
  unfold truth
  split
  · trivial
  · exact hP

/-- Atoms have no fields, so there is the fault at the position given. -/
theorem field_answers {value : Value} (h : value.IsAtom) (n : String) (hP : P position) :
    Answers IsAtom (fun d => P d.position) (value.field n position) := by
  cases value with
  | atom ty literal => exact hP
  | _ => exact h.elim

theorem setField_answers {value : Value} (h : value.IsAtom) (n : String) (new : Value)
    (hP : P position) :
    Answers IsAtom (fun d => P d.position) (value.setField n new position) := by
  cases value with
  | atom ty literal => exact hP
  | _ => exact h.elim

/-- Nor have they methods of the host. -/
theorem callMethod_answers {value : Value} (h : value.IsAtom) (host : Host) (n : String)
    (arguments : List Value) (hP : P position) :
    Answers IsAtom (fun d => P d.position) (value.callMethod host n arguments position) := by
  cases value with
  | atom ty literal => exact hP
  | _ => exact h.elim

/-- A constant has no parts, so only the constant itself can be changed. -/
theorem change_answers {f : Value → Except Diagnostic Value}
    (hf : ∀ value, value.IsAtom → Answers IsAtom (fun d => P d.position) (f value)) {path : Path}
    (hpath : ∀ step ∈ path, P step.2) {value : Value} (h : value.IsAtom) :
    Answers IsAtom (fun d => P d.position) (change f path value) := by
  cases path with
  | nil => exact hf value h
  | cons step path =>
    cases value with
    | atom ty literal => exact hpath step (List.mem_cons_self ..)
    | _ => exact h.elim

/-- Numbers give numbers, other operands are at fault where the operator stands. -/
theorem arithmetic_answers (left right : Value) (whole : Int → Int → Int)
    (fraction : Decimal → Decimal → Decimal) (hP : P position) :
    Answers IsAtom (fun d => P d.position) (arithmetic left right position whole fraction) := by
  unfold arithmetic
  split
  · trivial
  · trivial
  · exact hP

theorem ordered_answers (left right : Value) (holds : Ordering → Bool) (hP : P position) :
    Answers IsAtom (fun d => P d.position) (ordered left right position holds) := by
  rw [ordered]
  split
  · trivial
  · exact hP

/-- Whatever its operands are, an operator makes a constant of them or is itself at fault. -/
theorem apply_answers (operator : Operator) (left right : Value) (hP : P position) :
    Answers IsAtom (fun d => P d.position) (apply operator left right position) := by
  have htruths : ∀ f : Bool → Bool → Bool, Answers IsAtom (fun d => P d.position) (do
      let a ← left.truth position
      let b ← right.truth position
      return boolean (f a b)) := fun f =>
    (left.truth_answers hP).bind fun _ _ => (right.truth_answers hP).bind fun _ _ => trivial
  cases operator with
  | and | or => exact htruths _
  | less | lessEquals | greater | greaterEquals => exact ordered_answers left right _ hP
  | equals | notEquals => trivial
  | minus | multiply => exact arithmetic_answers left right _ _ hP
  | plus =>
    rw [apply]
    split
    · trivial
    · exact arithmetic_answers left right _ _ hP
  | divide =>
    rw [apply]
    split
    · exact hP
    · exact arithmetic_answers left right _ _ hP

end Value

/-! ## Machines -/

/-- What can be called without a host: `print`, and methods of the program. -/
def Callable.On (P : Position → Prop) : Callable → Prop
  | .print => True
  | .native _ => False
  | .method m _ => m.On P

namespace Machine

/-- A machine that has nothing from a host. Its variables are constants, and its methods have spans
as described. -/
def On (P : Position → Prop) (m : Machine) : Prop := m.scopes.All Value.IsAtom (Callable.On P)

variable {m : Machine}

theorem on_ofPrinter (printer : Printer) : (ofPrinter printer).On P :=
  .ofFunctions (List.forall_mem_singleton.mpr trivial)

theorem On.enter (h : m.On P) (parent : Nat) : (m.enter parent).On P := h.child parent

theorem On.leave (h : m.On P) (fresh back : Nat) : (m.leave fresh back).On P := h.release fresh

theorem changeScopes_answers
    {change : Scopes Value Callable → Nat → Except Diagnostic (Scopes Value Callable)}
    (h : Answers (Scopes.All Value.IsAtom (Callable.On P)) (fun d => P d.position)
      (change m.scopes m.scope)) :
    Answers (On P) (fun d => P d.position) (m.changeScopes change) := by
  obtain ⟨scopes, scope, printer⟩ := m
  rw [changeScopes]
  split
  · next changed hchanged => exact h.of_ok hchanged
  · next d hd => exact h.of_error hd

end Machine

/-! ## Runs -/

namespace Run

variable {α β : Type} {good : α → Prop} {good' : β → Prop}

/-- A run that comes to a good result on machines that have nothing from a host, and gives them
nothing, or else fails at a position as described. -/
def Blames (P : Position → Prop) (good : α → Prop) (r : Run α) : Prop :=
  ∀ m : Machine, m.On P →
    r.Ensures m (fun result last => good result ∧ last.On P) (fun d _ => P d.position)

theorem blames_pure {result : α} (h : good result) : (Run.pure result).Blames P good :=
  fun _ hm => ensures_pure ⟨h, hm⟩

theorem blames_exhausted : (exhausted : Run α).Blames P good := fun m _ => ensures_exhausted m

theorem blames_fail (fault : Fault) (h : P position) :
    (fail fault position : Run α).Blames P good := fun _ _ => h

theorem blames_ofExcept {result : Except Diagnostic α}
    (h : Answers good (fun d => P d.position) result) : (ofExcept result).Blames P good :=
  fun _ hm => ensures_ofExcept (h.mono (fun _ hgood => ⟨hgood, hm⟩) fun _ hP => hP)

theorem blames_look {f : Machine → Except Diagnostic α}
    (h : ∀ m, m.On P → Answers good (fun d => P d.position) (f m)) : (look f).Blames P good :=
  fun m hm => ensures_look ((h m hm).mono (fun _ hgood => ⟨hgood, hm⟩) fun _ hP => hP)

theorem blames_change {f : Machine → Except Diagnostic Machine}
    (h : ∀ m, m.On P → Answers (Machine.On P) (fun d => P d.position) (f m)) :
    (change f).Blames P (fun _ => True) :=
  fun m hm => ensures_change ((h m hm).mono (fun _ hlast => ⟨trivial, hlast⟩) fun _ hP => hP)

/-- One run after the other blames what either does. -/
theorem Blames.bind {first : Run α} {next : α → Run β} (h : first.Blames P good)
    (hnext : ∀ result, good result → (next result).Blames P good') :
    (first >>= next).Blames P good' := fun _ hm =>
  .bind ((h _ hm).mono (fun result mid hmid => hnext result hmid.1 mid hmid.2)
    fun _ _ hfailed => hfailed)

/-- A scope of its own starts without anything that could be to blame. -/
theorem Blames.inScope {inner : Run α} (h : inner.Blames P good) (parent : Nat) :
    (inScope parent inner).Blames P good := fun _ hm =>
  ensures_inScope ((h _ (hm.enter parent)).mono
    (fun _ _ hlast => ⟨hlast.1, hlast.2.leave _ _⟩) fun _ _ hfailed => hfailed)

theorem Blames.inBlock {inner : Run α} (h : inner.Blames P good) :
    (inBlock inner).Blames P good := fun m hm => h.inScope m.scope m hm

end Run

/-- What a flow carries out of a method is a constant. -/
def Flow.IsAtom : Flow → Prop
  | .next => True
  | .returned value => value.IsAtom

namespace Run

theorem Blames.unlessReturned {first next : Run Flow} (h : first.Blames P Flow.IsAtom)
    (hnext : next.Blames P Flow.IsAtom) :
    (first.unlessReturned next).Blames P Flow.IsAtom := fun m hm => by
  refine ensures_unlessReturned ((h m hm).mono (fun flow mid hmid => ?_) fun _ _ hfailed => hfailed)
  cases flow with
  | next => exact hnext mid hmid.2
  | returned value => exact hmid

/-- Rounds blame what the condition or a round does; that the fuel is used up is no fault. -/
theorem Blames.rounds {condition : Run Bool} {round : Run Flow}
    (hcondition : condition.Blames P (fun _ => True)) (hround : round.Blames P Flow.IsAtom)
    (left : Nat) : (rounds condition round left).Blames P Flow.IsAtom := fun m hm => by
  refine ensures_rounds (Machine.On P) (fun mid hmid => ?_) (fun mid hmid => ?_) left m hm
  · exact (hcondition mid hmid).mono (fun _ _ hlast => ⟨hlast.2, fun _ => ⟨trivial, hlast.2⟩⟩)
      fun _ _ hfailed => hfailed
  · refine (hround mid hmid).mono (fun flow last hlast => ?_) fun _ _ hfailed => hfailed
    cases flow with
    | next => exact hlast.2
    | returned value => exact hlast

theorem declare_blames (n : String) {value : Value} (hvalue : value.IsAtom) (hP : P position) :
    (change (·.declare n value position)).Blames P (fun _ => True) :=
  blames_change fun _ hm =>
    Machine.changeScopes_answers (Scopes.All.defineVariable hm _ n hvalue hP)

end Run

/-! ## Expressions -/

variable {host : Host} {caller : Caller}

/-- A caller that fails at the place of a call, or at positions as described. -/
def Caller.Blames (P : Position → Prop) (caller : Caller) : Prop :=
  ∀ n arguments position, (∀ argument ∈ arguments, argument.IsAtom) → P position →
    (caller n arguments position).Blames P Value.IsAtom

namespace Expr

open Run

theorem evaluateBinary_blames (operator : Operator) (left : Value) {right : Run Value}
    (h : right.Blames P Value.IsAtom) (hP : P position) :
    (evaluateBinary operator left right position).Blames P Value.IsAtom := by
  have htruth : (do
      let value ← right
      let b ← Run.ofExcept (value.truth position)
      return Value.boolean b : Run Value).Blames P Value.IsAtom :=
    h.bind fun value _ => (blames_ofExcept (value.truth_answers hP)).bind fun _ _ =>
      blames_pure trivial
  unfold evaluateBinary
  split
  · refine (blames_ofExcept (left.truth_answers hP)).bind fun b _ => ?_
    split
    · exact htruth
    · exact blames_pure trivial
  · refine (blames_ofExcept (left.truth_answers hP)).bind fun b _ => ?_
    split
    · exact blames_pure trivial
    · exact htruth
  · exact h.bind fun value _ => blames_ofExcept (Value.apply_answers _ left value hP)

mutual

/-- An expression comes to a constant, or fails at the start of one of the expressions in it. -/
theorem evaluate_blames (hcaller : caller.Blames P) : ∀ {e : Expr}, e.On P →
    (e.evaluate host caller).Blames P Value.IsAtom
  | literal .., _ => blames_pure trivial
  | group inner .., h => evaluate_blames hcaller (e := inner) h.1
  | binary operator .., h =>
    (evaluate_blames hcaller h.1).bind fun left _ =>
      evaluateBinary_blames operator left (evaluate_blames hcaller h.2.1) h.2.2.start
  | name n _ _, h => blames_look fun m hm => Scopes.All.lookupVariable hm m.scope n h.start
  | member _ n _ _, h =>
    (evaluate_blames hcaller h.1).bind fun _ hvalue =>
      blames_ofExcept (Value.field_answers hvalue n h.2.start)
  | call n .., h =>
    (evaluateAll_blames hcaller h.1).bind fun values hvalues =>
      hcaller n values _ hvalues h.2.start
  | methodCall _ n .., h =>
    (evaluate_blames hcaller h.1).bind fun _ hvalue =>
      (evaluateAll_blames hcaller h.2.1).bind fun values _ =>
        blames_ofExcept (Value.callMethod_answers hvalue host n values h.2.2.start)

/-- Arguments blame what one of them does. -/
theorem evaluateAll_blames (hcaller : caller.Blames P) : ∀ {es : List Expr}, AllOn P es →
    (evaluateAll host caller es).Blames P fun values => ∀ value ∈ values, value.IsAtom
  | [], _ => blames_pure nofun
  | _ :: _, h =>
    (evaluate_blames hcaller h.1).bind fun _ hvalue =>
      (evaluateAll_blames hcaller h.2).bind fun _ hvalues =>
        blames_pure (List.forall_mem_cons.mpr ⟨hvalue, hvalues⟩)

end

theorem evaluateTruth_blames (hcaller : caller.Blames P) {e : Expr} (h : e.On P) :
    (e.evaluateTruth host caller).Blames P (fun _ => True) :=
  (evaluate_blames hcaller h).bind fun value _ =>
    blames_ofExcept (value.truth_answers h.span.start)

/-- No constant can be run over. -/
theorem evaluateItems_blames (hcaller : caller.Blames P) {e : Expr} (h : e.On P) :
    (e.evaluateItems host caller).Blames P fun _ => False := by
  refine (evaluate_blames hcaller h).bind fun value hvalue => ?_
  cases value with
  | atom ty literal => exact blames_fail _ h.span.start
  | _ => exact hvalue.elim

end Expr

/-! ## Places -/

/-- A place that is written at positions as described. -/
structure Place.On (P : Position → Prop) (place : Place) : Prop where
  /-- that of the variable -/
  position : P place.position
  /-- those of the fields -/
  path : ∀ step ∈ place.path, P step.2

theorem Place.change_blames {place : Place} (h : place.On P)
    {f : Value → Except Diagnostic Value}
    (hf : ∀ value, value.IsAtom → Answers Value.IsAtom (fun d => P d.position) (f value)) :
    (place.change f).Blames P (fun _ => True) :=
  Run.blames_change fun m hm =>
    (Scopes.All.lookupVariable hm m.scope place.name h.position).bind fun _ hvalue =>
      (Value.change_answers hf h.path hvalue).bind fun _ hchanged =>
        Machine.changeScopes_answers (Scopes.All.assign hm _ place.name hchanged h.position)

namespace Expr

open Run

/-- The steps of a place stand where the names of its expression do. -/
theorem on_of_place? : ∀ {e : Expr} {place : Place}, e.On P → e.place? = some place → place.On P
  | name .., _, h, hplace => by
    obtain rfl := Option.some.inj hplace
    exact ⟨h.start, nofun⟩
  | member receiver n _ span, _, h, hplace => by
    obtain ⟨inner, hinner, rfl⟩ := Option.map_eq_some_iff.mp hplace
    have hon := on_of_place? h.1 hinner
    exact ⟨hon.position, List.forall_mem_append.mpr
      ⟨hon.path, List.forall_mem_singleton.mpr h.2.start⟩⟩
  | literal .., _, _, hplace | group .., _, _, hplace | binary .., _, _, hplace
  | call .., _, _, hplace | methodCall .., _, _, hplace => nomatch hplace

/-- An assignment fails where a name is written that it looks for, or in the value. -/
theorem assign_blames (hcaller : caller.Blames P) {target e : Expr} (htarget : target.On P)
    (he : e.On P) : (target.assign host caller e).Blames P (fun _ => True) := by
  unfold assign
  split
  · next n _ span =>
    refine (evaluate_blames hcaller he).bind fun value hvalue => ?_
    exact blames_change fun _ hm =>
      Machine.changeScopes_answers (Scopes.All.assign hm _ n hvalue htarget.start)
  · next receiver n _ span =>
    refine (evaluate_blames hcaller he).bind fun value _ => ?_
    have hset : ∀ held : Value, held.IsAtom → Answers Value.IsAtom (fun d => P d.position)
        (held.setField n value span.start) :=
      fun held hheld => Value.setField_answers hheld n value htarget.2.start
    split
    · next place hplace => exact Place.change_blames (on_of_place? htarget.1 hplace) hset
    · refine (evaluate_blames hcaller htarget.1).bind fun temporary htemporary => ?_
      exact (blames_ofExcept (hset temporary htemporary)).bind fun _ _ => blames_pure trivial
  · exact blames_fail _ htarget.span.start

end Expr

/-! ## Statements -/

namespace Run

/-- The first value of a variable. -/
theorem value_blames (hcaller : caller.Blames P) {value : Option Expr}
    (h : ∀ e ∈ value, e.On P) :
    (value.elim (Run.pure .nil) (Expr.evaluate host caller)).Blames P Value.IsAtom := by
  cases value with
  | none => exact blames_pure trivial
  | some e => exact Expr.evaluate_blames hcaller (h e rfl)

end Run

namespace Stmt

open Run

variable {fuel : Nat}

mutual

/-- A statement fails at its start, or at that of one of the statements and expressions in it. -/
theorem execute_blames (hcaller : caller.Blames P) : ∀ {stmt : Stmt}, stmt.On P →
    (stmt.execute host caller fuel).Blames P Flow.IsAtom
  | expression .., h => (Expr.evaluate_blames hcaller h.1).bind fun _ _ => blames_pure trivial
  | declaration n .., h =>
    (value_blames hcaller h.1).bind fun _ hvalue =>
      (declare_blames n hvalue h.2.start).bind fun _ _ => blames_pure trivial
  | assignment .., h =>
    (Expr.assign_blames hcaller h.1 h.2.1).bind fun _ _ => blames_pure trivial
  | conditional _ thenBody elseBody _, h => by
    refine (Expr.evaluateTruth_blames hcaller h.1).bind fun b _ => ?_
    split
    · exact (executeAll_blames hcaller h.2.1).inBlock
    · exact (executeAll_blames hcaller h.2.2.1).inBlock
  | forEach .., h =>
    (Expr.evaluateItems_blames hcaller h.1).bind fun _ hitems => hitems.elim
  | whileLoop .., h =>
    (Expr.evaluateTruth_blames hcaller h.1).rounds (executeAll_blames hcaller h.2.1).inBlock fuel
  | returns .., h => (Expr.evaluate_blames hcaller h.1).bind fun _ hvalue => blames_pure hvalue

/-- A block blames what its statements do. -/
theorem executeAll_blames (hcaller : caller.Blames P) : ∀ {stmts : List Stmt}, AllOn P stmts →
    (executeAll host caller fuel stmts).Blames P Flow.IsAtom
  | [], _ => blames_pure trivial
  | _ :: _, h => (execute_blames hcaller h.1).unlessReturned (executeAll_blames hcaller h.2)

end

end Stmt

/-! ## Programs -/

namespace Run

theorem print_blames (values : List Value) : (print values).Blames P Value.IsAtom :=
  fun _ hm => ⟨trivial, hm⟩

/-- Two parameters of one name are at fault where the method starts. -/
theorem declareParameters_blames (hP : P position) :
    ∀ (parameters : List (String × String)) {values : List Value},
      (∀ value ∈ values, value.IsAtom) →
      (declareParameters position parameters values).Blames P (fun _ => True)
  | parameter :: parameters, _ :: _, h => by
    obtain ⟨hfirst, hothers⟩ := List.forall_mem_cons.mp h
    exact (declare_blames parameter.1 hfirst hP).bind fun _ _ =>
      declareParameters_blames hP parameters hothers
  | [], _, _ => blames_pure trivial
  | _ :: _, [], _ => blames_pure trivial

/-- A call runs what the program defined, so it fails where it stands, or inside of that. -/
theorem call_blames (host : Host) : ∀ fuel, Caller.Blames P (call host fuel)
  | 0, _, _, _, _, _ => blames_exhausted
  | fuel + 1, n, arguments, position, harguments, hP => by
    refine (blames_look fun m hm =>
      Scopes.All.lookupFunction hm m.scope n arguments.length hP).bind fun f hf => ?_
    cases f with
    | print => exact print_blames arguments
    | native answer => exact hf.elim
    | method m scope =>
      have hbody : (do
          declareParameters m.span.start m.parameters arguments
          Stmt.executeAll host (call host fuel) fuel m.body : Run Flow).Blames P Flow.IsAtom :=
        (declareParameters_blames hf.span.start m.parameters harguments).bind fun _ _ =>
          Stmt.executeAll_blames (call_blames host fuel) hf.body
      refine (hbody.inScope scope).bind fun flow hflow => blames_pure ?_
      cases flow with
      | next => trivial
      | returned value => exact hflow

theorem defineFields_blames (host : Host) (fuel : Nat) : ∀ {fields : List Field},
    (∀ f ∈ fields, f.On P) → (defineFields host fuel fields).Blames P (fun _ => True)
  | [], _ => blames_pure trivial
  | f :: fields, h => by
    obtain ⟨hfirst, hothers⟩ := List.forall_mem_cons.mp h
    refine (value_blames (call_blames host fuel) hfirst.value).bind fun value hvalue => ?_
    refine (blames_change fun m hm => Machine.changeScopes_answers
      (Scopes.All.defineVariable hm _ f.name hvalue hfirst.span.start)).bind fun _ _ => ?_
    exact defineFields_blames host fuel hothers

theorem defineMethods_blames : ∀ {methods : List Method},
    (∀ m ∈ methods, m.On P) → (defineMethods methods).Blames P (fun _ => True)
  | [], _ => blames_pure trivial
  | method :: methods, h => by
    obtain ⟨hfirst, hothers⟩ := List.forall_mem_cons.mp h
    have hcallable : Callable.On P (.method method Scopes.root) := hfirst
    refine (blames_change fun m hm => Machine.changeScopes_answers
      (Scopes.All.defineFunction hm _ method.name _ hcallable hfirst.span.start)).bind
      fun _ _ => ?_
    exact defineMethods_blames hothers

/-- A program fails at one of its own positions. -/
theorem program_blames (host : Host) (fuel : Nat) {p : Program} (h : p.On P) :
    (program host fuel p).Blames P Value.IsAtom :=
  (defineFields_blames host fuel h.fields).bind fun _ _ =>
    (defineMethods_blames h.methods).bind fun _ _ =>
      call_blames host fuel _ _ _ nofun h.span.stop

end Run

namespace Diagnostic

/-- Every diagnostic about a text of less than 2^32 bytes points into the text and is shown with a
line of it. A fault of tokens and trees is one of reading, and what checking finds is a fault of
checking. A program that was read may be run as it is or as checking leaves it, accepted or not. -/
theorem points_into_source {source file : String} (hsize : source.utf8ByteSize < UInt32.size) :
    (∀ d, Token.tokenize source file = .error d →
      d.fault.phase = .reading ∧ d.PointsInto source file) ∧
    ∀ tokens, Token.tokenize source file = .ok tokens →
      (∀ d, Program.parse tokens file = .error d →
        d.fault.phase = .reading ∧ d.PointsInto source file) ∧
      ∀ p, Program.parse tokens file = .ok p →
        (∀ d, (p.check .initial).2.verdict = .error d →
          d.fault.phase = .checking ∧ d.PointsInto source file) ∧
        ∀ q ∈ [p, (p.check .initial).2.tree], ∀ host fuel printer d last,
          Run.program host fuel q (Machine.ofPrinter printer) = .failed d last →
            d.PointsInto source file := by
  have hpoints : ∀ {phase : Phase} {d : Diagnostic},
      d.Blames phase (Position.Within source file) →
        d.fault.phase = phase ∧ d.PointsInto source file :=
    fun h => ⟨h.fault, points_of_within hsize h.position⟩
  have htokenize := Token.tokenize_places hsize file
  refine ⟨fun d hd => hpoints (htokenize.of_error hd), fun tokens htokens => ?_⟩
  have hstart : Position.Within source file ⟨0, file⟩ :=
    Position.within_behind file (List.nil_append source.toList).symm rfl (.zero _)
  have hparse := Program.parse_places (htokenize.of_ok htokens) hstart
  refine ⟨fun d hd => hpoints (hparse.of_error hd), fun p hp => ?_⟩
  have hon := hparse.of_ok hp
  have hchecked : (p.check .initial).2.tree.On (Position.Within source file) :=
    (Program.on_cleared _).mp (by rw [p.cleared_check]; exact p.on_cleared.mpr hon)
  refine ⟨fun d hd => hpoints (Answers.of_error (Program.check_blames .initial hon) hd), ?_⟩
  intro q hq host fuel printer d last hrun
  have hq : q.On (Position.Within source file) := by
    rcases List.mem_pair.mp hq with rfl | rfl
    · exact hon
    · exact hchecked
  have hblames := Run.program_blames host fuel hq
  exact points_of_within hsize ((hblames _ (Machine.on_ofPrinter printer)).of_failed hrun)

/-- A program that divides by zero, behind a character of two bytes. -/
def dividing : String := "DEF main(): Integer DO LET s = \"é\"; RETURN 1 / 0; END"

theorem dividing_points_into_source : ∃ tokens p d last,
    dividing.utf8ByteSize < UInt32.size ∧ Token.tokenize dividing "shell" = .ok tokens ∧
      Program.parse tokens "shell" = .ok p ∧
      Run.program (fun _ value _ => .ok value) 1 p .initial = .failed d last ∧
      d = ⟨.divisionByZero, ⟨44, "shell"⟩⟩ ∧ d.PointsInto dividing "shell" := by
  have hsize : dividing.utf8ByteSize < UInt32.size := by decide
  have hend : (do
      let tokens ← (Token.tokenize dividing "shell").toOption
      let p ← (Program.parse tokens "shell").toOption
      match Run.program (fun _ value _ => .ok value) 1 p .initial with
        | .failed d _ => some d
        | _ => none) = some ⟨.divisionByZero, ⟨44, "shell"⟩⟩ := by decide +kernel
  rcases htokens : Token.tokenize dividing "shell" with d | tokens <;> rw [htokens] at hend
  · cases hend
  change (Program.parse tokens "shell").toOption.bind _ = _ at hend
  rcases hp : Program.parse tokens "shell" with d | p <;> rw [hp] at hend
  · cases hend
  change (match Run.program _ 1 p .initial with
    | .failed d _ => some d
    | _ => none) = _ at hend
  split at hend
  · next d last hrun =>
    obtain rfl := Option.some.inj hend
    exact ⟨tokens, p, _, last, hsize, rfl, hp, hrun, rfl,
      (((points_into_source hsize).2 tokens htokens).2 p hp).2 p (List.mem_cons_self ..)
        _ _ _ _ last hrun⟩
  · cases hend

end Diagnostic

end TeachLang
