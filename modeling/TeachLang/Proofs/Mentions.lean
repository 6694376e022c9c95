import TeachLang.Proofs.Failures
import TeachLang.Proofs.Related

/-!
# What a program mentions

A program refers to a definition of the scopes around it in two ways: by the name of a variable, or
by a call, which names a function with a number of arguments. `Program.mentions` lists what it
refers to, and what it declares itself.

Scopes may be the same but for one definition that is hidden from the program
(`Scopes.SameBut`). Everything that can be done to scopes keeps them so, and whatever is not hidden
is found in the same place. So a program that does not mention the hidden definition is checked to
the same end with either.
-/

namespace TeachLang

/-- What scopes know by a name. -/
inductive Definition where
  /-- a variable -/
  | named (name : String)
  /-- a function with a number of parameters -/
  | called (key : String × Nat)
  deriving DecidableEq

/-! ## Mentions -/

namespace Expr

mutual

/-- The definitions that an expression refers to. -/
def mentions : Expr → List Definition
  | literal .. => []
  | group inner _ _ => inner.mentions
  | binary _ left right _ _ => left.mentions ++ right.mentions
  | name n _ _ => [.named n]
  | member receiver _ _ _ => receiver.mentions
  | call n arguments _ _ => .called (n, arguments.length) :: allMentions arguments
  | methodCall receiver _ arguments _ _ => receiver.mentions ++ allMentions arguments

/-- The definitions that expressions refer to. -/
def allMentions : List Expr → List Definition
  | [] => []
  | e :: es => e.mentions ++ allMentions es

end

/-- The definitions that an expression refers to, if there is one. -/
def optionMentions (e : Option Expr) : List Definition := e.elim [] mentions

end Expr

namespace Stmt

mutual

/-- The definitions that a statement refers to, and those that it declares. -/
def mentions : Stmt → List Definition
  | expression e _ => e.mentions
  | declaration n _ value _ _ => .named n :: Expr.optionMentions value
  | assignment target value _ => target.mentions ++ value.mentions
  | conditional condition thenBody elseBody _ =>
    condition.mentions ++ (allMentions thenBody ++ allMentions elseBody)
  | forEach n items body _ => .named n :: (items.mentions ++ allMentions body)
  | whileLoop condition body _ => condition.mentions ++ allMentions body
  | returns value _ => value.mentions

/-- The definitions that statements refer to, and those that they declare. -/
def allMentions : List Stmt → List Definition
  | [] => []
  | stmt :: stmts => stmt.mentions ++ allMentions stmts

end

end Stmt

/-- The definitions that a field refers to, and itself. -/
def Field.mentions (f : Field) : List Definition :=
  .named f.name :: Expr.optionMentions f.value

/-- The definitions that a method refers to, its parameters, and itself. -/
def Method.mentions (m : Method) : List Definition :=
  .called (m.name, m.parameters.length) ::
    (m.parameters.map (fun parameter => .named parameter.1) ++ Stmt.allMentions m.body)

/-- The definitions that a program refers to, and those that it declares. Every program refers to
the method that it starts with. -/
def Program.mentions (p : Program) : List Definition :=
  .called (Program.entryName, 0) ::
    (p.fields.flatMap Field.mentions ++ p.methods.flatMap Method.mentions)

/-! ## Scopes with something hidden -/

section Entries

variable {K V : Type} [BEq K] [LawfulBEq K]

/-- What is found is the same when only other entries are left out. -/
theorem lookup_filter (shown : K → Bool) {key : K} (h : shown key = true)
    (entries : List (K × V)) :
    (entries.filter fun entry => shown entry.1).lookup key = entries.lookup key := by
  induction entries with
  | nil => rfl
  | cons entry entries ih =>
    rw [List.filter_cons, List.lookup_cons]
    by_cases hkey : key = entry.1
    · rw [← hkey, if_pos h, List.lookup_cons, ← hkey, BEq.rfl]
    · rw [beq_eq_false_iff_ne.mpr hkey]
      split
      · rw [List.lookup_cons, beq_eq_false_iff_ne.mpr hkey]
        exact ih
      · exact ih

end Entries

variable {V F : Type} {hidden : Definition}

/-- Another value for a variable, once some variables are left out. -/
theorem Scope.filter_rebind (shown : String → Bool) (name : String) (value : V)
    (bindings : List (String × V)) :
    (rebind name value bindings).filter (fun v => shown v.1) =
      if shown name then rebind name value (bindings.filter fun v => shown v.1)
      else bindings.filter fun v => shown v.1 := by
  induction bindings with
  | nil => cases shown name <;> rfl
  | cons binding bindings ih =>
    obtain ⟨n, v⟩ := binding
    rw [rebind]
    by_cases hn : n = name
    · subst hn
      cases hs : shown n <;> simp [hs, rebind]
    · rw [if_neg hn, List.filter_cons, ih, List.filter_cons]
      cases hs : shown n <;> cases hname : shown name <;> simp [rebind, hn]

/-- The variables that are not hidden. -/
def Definition.otherVariablesOf (hidden : Definition) (bindings : List (String × V)) :
    List (String × V) :=
  bindings.filter fun v => Definition.named v.1 ≠ hidden

/-- The functions that are not hidden. -/
def Definition.otherFunctionsOf (hidden : Definition) (functions : List ((String × Nat) × F)) :
    List ((String × Nat) × F) :=
  functions.filter fun f => Definition.called f.1 ≠ hidden

/-- Two scopes that are the same but for a hidden definition. -/
structure Scope.SameBut (hidden : Definition) (a b : Scope V F) : Prop where
  /-- they are nested alike -/
  parent : a.parent = b.parent
  /-- the other variables -/
  bindings : hidden.otherVariablesOf a.bindings = hidden.otherVariablesOf b.bindings
  /-- the other functions -/
  functions : hidden.otherFunctionsOf a.functions = hidden.otherFunctionsOf b.functions

namespace Scope.SameBut

variable {a b : Scope V F} {name : String} {key : String × Nat}

theorem refl (a : Scope V F) : SameBut hidden a a := ⟨rfl, rfl, rfl⟩

/-- Variables under another name than the hidden one are found alike. -/
theorem lookup_bindings (h : SameBut hidden a b) (hname : .named name ≠ hidden) :
    a.bindings.lookup name = b.bindings.lookup name := by
  have hshown : decide (Definition.named name ≠ hidden) = true := decide_eq_true hname
  have hleft := lookup_filter (fun n => Definition.named n ≠ hidden) hshown a.bindings
  have hright := lookup_filter (fun n => Definition.named n ≠ hidden) hshown b.bindings
  exact hleft.symm.trans ((congrArg (List.lookup name) h.bindings).trans hright)

/-- Functions under another key than the hidden one are found alike. -/
theorem lookup_functions (h : SameBut hidden a b) (hkey : .called key ≠ hidden) :
    a.functions.lookup key = b.functions.lookup key := by
  have hshown : decide (Definition.called key ≠ hidden) = true := decide_eq_true hkey
  have hleft := lookup_filter (fun k => Definition.called k ≠ hidden) hshown a.functions
  have hright := lookup_filter (fun k => Definition.called k ≠ hidden) hshown b.functions
  exact hleft.symm.trans ((congrArg (List.lookup key) h.functions).trans hright)

/-- The same definition in both leaves them the same but for what is hidden, even if it is under the
hidden name. -/
theorem addVariable (h : SameBut hidden a b) (name : String) (value : V) :
    SameBut hidden (a.addVariable name value) (b.addVariable name value) := by
  refine ⟨h.parent, ?_, h.functions⟩
  have hbindings := h.bindings
  simp only [Definition.otherVariablesOf, bindings_addVariable, List.filter_append] at hbindings ⊢
  rw [hbindings]

theorem setVariable (h : SameBut hidden a b) (name : String) (value : V) :
    SameBut hidden (a.setVariable name value) (b.setVariable name value) := by
  refine ⟨h.parent, ?_, h.functions⟩
  have hbindings := h.bindings
  simp only [Definition.otherVariablesOf, bindings_setVariable] at hbindings ⊢
  rw [filter_rebind (fun n => Definition.named n ≠ hidden),
    filter_rebind (fun n => Definition.named n ≠ hidden), hbindings]

theorem addFunction (h : SameBut hidden a b) (key : String × Nat) (f : F) :
    SameBut hidden (a.addFunction key f) (b.addFunction key f) := by
  refine ⟨h.parent, h.bindings, ?_⟩
  have hfunctions := h.functions
  simp only [Definition.otherFunctionsOf, functions_addFunction, List.filter_append]
    at hfunctions ⊢
  rw [hfunctions]

/-- A definition of what is hidden, in one of them only, cannot be told. -/
theorem addHiddenVariable (h : SameBut (.named name) a b) (value : V) :
    SameBut (.named name) a (b.addVariable name value) := by
  refine ⟨h.parent, ?_, h.functions⟩
  have hbindings := h.bindings
  simp only [Definition.otherVariablesOf, bindings_addVariable, List.filter_append] at hbindings ⊢
  simpa using hbindings

/-- The same for functions. -/
theorem addHiddenFunction (h : SameBut (.called key) a b) (f : F) :
    SameBut (.called key) a (b.addFunction key f) := by
  refine ⟨h.parent, h.bindings, ?_⟩
  have hfunctions := h.functions
  simp only [Definition.otherFunctionsOf, functions_addFunction, List.filter_append]
    at hfunctions ⊢
  simpa using hfunctions

end Scope.SameBut

/-- Both answers are the same diagnostic, or they are related. -/
inductive AnswersAlike {α β : Type} (R : α → β → Prop) :
    Except Diagnostic α → Except Diagnostic β → Prop where
  /-- both are good -/
  | ok {a : α} {b : β} : R a b → AnswersAlike R (.ok a) (.ok b)
  /-- neither is -/
  | error (d : Diagnostic) : AnswersAlike R (.error d) (.error d)

namespace Scopes

/-- Scopes that are the same, place by place, but for a hidden definition. -/
def SameBut (hidden : Definition) (s t : Scopes V F) : Prop :=
  ∀ id, Option.Rel (Scope.SameBut hidden) (s.get? id) (t.get? id)

namespace SameBut

variable {s t : Scopes V F} {name : String} {arity : Nat}

theorem refl (s : Scopes V F) : SameBut hidden s s := by
  intro id
  cases s.get? id with
  | none => exact .none
  | some scope => exact .some (.refl scope)

theorem depth_eq (h : SameBut hidden s t) : s.depth = t.depth := by
  have live_iff : ∀ id, id < s.depth ↔ id < t.depth := by
    intro id
    rw [← isSome_get?, ← isSome_get?, isSome_eq_of_rel (h id)]
  have hs := live_iff s.depth
  have ht := live_iff t.depth
  omega

/-! ### Finding -/

/-- The way outward is the same: it is a matter of parents, and nothing of them is hidden. -/
theorem chain_eq (h : SameBut hidden s t) : s.chain = t.chain := by
  funext id
  rw [chain, chain, h.depth_eq]
  refine outward_congr (fun id => ?_) _ _
  have hid := h id
  generalize s.get? id = a at hid ⊢
  generalize t.get? id = b at hid ⊢
  cases hid with
  | none => rfl
  | some hab => exact congrArg some hab.parent

theorem variableIn?_eq (h : SameBut hidden s t) (hname : .named name ≠ hidden) (id : Nat) :
    s.variableIn? name id = t.variableIn? name id := by
  have hid := h id
  rw [variableIn?, variableIn?]
  generalize s.get? id = a at hid ⊢
  generalize t.get? id = b at hid ⊢
  cases hid with
  | none => rfl
  | some hab =>
    exact (Scope.get?_variableTable ..).trans
      ((hab.lookup_bindings hname).trans (Scope.get?_variableTable ..).symm)

theorem functionIn?_eq (h : SameBut hidden s t) (hkey : .called (name, arity) ≠ hidden)
    (id : Nat) : s.functionIn? name arity id = t.functionIn? name arity id := by
  have hid := h id
  rw [functionIn?, functionIn?]
  generalize s.get? id = a at hid ⊢
  generalize t.get? id = b at hid ⊢
  cases hid with
  | none => rfl
  | some hab =>
    exact (Scope.get?_functionTable ..).trans
      ((hab.lookup_functions hkey).trans (Scope.get?_functionTable ..).symm)

/-- A name that is not hidden is at home in the same scope. -/
theorem home?_eq (h : SameBut hidden s t) (hname : .named name ≠ hidden) (id : Nat) :
    s.home? id name = t.home? id name := by
  rw [home?, home?, h.chain_eq]
  simp only [h.variableIn?_eq hname]

/-- The nearest variable is the same, or there is the same fault. -/
theorem lookupVariable_eq (h : SameBut hidden s t) (hname : .named name ≠ hidden) (id : Nat)
    (position : Position) :
    s.lookupVariable id name position = t.lookupVariable id name position := by
  have hin : s.variableIn? name = t.variableIn? name := funext (h.variableIn?_eq hname)
  rw [lookupVariable, lookupVariable, nearestVariable?, nearestVariable?, h.chain_eq, hin]

theorem lookupFunction_eq (h : SameBut hidden s t) (hkey : .called (name, arity) ≠ hidden)
    (id : Nat) (position : Position) :
    s.lookupFunction id name arity position = t.lookupFunction id name arity position := by
  have hin : s.functionIn? name arity = t.functionIn? name arity := funext (h.functionIn?_eq hkey)
  rw [lookupFunction, lookupFunction, nearestFunction?, nearestFunction?, h.chain_eq, hin]

/-! ### Changing -/

theorem child (h : SameBut hidden s t) (parent : Nat) :
    SameBut hidden (s.child parent) (t.child parent) := by
  intro id
  rw [get?_child, get?_child, h.depth_eq]
  split
  · exact .some (.refl _)
  · exact h id

theorem release (h : SameBut hidden s t) (place : Nat) :
    SameBut hidden (s.release place) (t.release place) := by
  have hplace (u : Scopes V F) : u.release place = u.release (max place 1) := by
    simp [Scopes.release]
  intro id
  rw [hplace s, hplace t, get?_release (by omega), get?_release (by omega)]
  split
  · exact h id
  · exact .none

/-- Changes of one scope that keep it the same keep all scopes the same. -/
theorem modify (h : SameBut hidden s t) (home : Nat) {change change' : Scope V F → Scope V F}
    (hchange : ∀ a b, Scope.SameBut hidden a b → Scope.SameBut hidden (change a) (change' b)) :
    SameBut hidden ⟨s.scopes.modify home change⟩ ⟨t.scopes.modify home change'⟩ := by
  intro id
  have hid := h id
  rw [get?_modify, get?_modify]
  split
  · generalize s.get? id = a at hid ⊢
    generalize t.get? id = b at hid ⊢
    cases hid with
    | none => exact .none
    | some hab => exact .some (hchange _ _ hab)
  · exact hid

/-- What is changed on the second side alone. -/
theorem modify_right (h : SameBut hidden s t) (home : Nat) {change : Scope V F → Scope V F}
    (hchange : ∀ a b, Scope.SameBut hidden a b → Scope.SameBut hidden a (change b)) :
    SameBut hidden s ⟨t.scopes.modify home change⟩ := by
  intro id
  have hboth := h.modify home hchange id
  have hsame : (⟨s.scopes.modify home fun a => a⟩ : Scopes V F).get? id = s.get? id := by
    rw [get?_modify, Option.map_id', ite_self]
  rwa [hsame] at hboth

/-- Something new is defined in both or in none, as only what is not hidden can be in the way. -/
theorem defineVariable (h : SameBut hidden s t) (hname : .named name ≠ hidden) (id : Nat)
    (value : V) (position : Position) :
    AnswersAlike (SameBut hidden) (s.defineVariable id name value position)
      (t.defineVariable id name value position) := by
  rw [Scopes.defineVariable, Scopes.defineVariable, h.variableIn?_eq hname]
  cases t.variableIn? name id with
  | some _ => exact .error _
  | none => exact .ok (h.modify id fun _ _ hab => hab.addVariable name value)

theorem defineFunction (h : SameBut hidden s t) (hkey : .called (name, arity) ≠ hidden) (id : Nat)
    (f : F) (position : Position) :
    AnswersAlike (SameBut hidden) (s.defineFunction id name arity f position)
      (t.defineFunction id name arity f position) := by
  rw [Scopes.defineFunction, Scopes.defineFunction, h.functionIn?_eq hkey]
  cases t.functionIn? name arity id with
  | some _ => exact .error _
  | none => exact .ok (h.modify id fun _ _ hab => hab.addFunction (name, arity) f)

/-- A value is given to the same variable. -/
theorem assign (h : SameBut hidden s t) (hname : .named name ≠ hidden) (id : Nat) (value : V)
    (position : Position) :
    AnswersAlike (SameBut hidden) (s.assign id name value position)
      (t.assign id name value position) := by
  rw [Scopes.assign, Scopes.assign, h.home?_eq hname]
  cases t.home? id name with
  | some home => exact .ok (h.modify home fun _ _ hab => hab.setVariable name value)
  | none => exact .error _

end SameBut

end Scopes

end TeachLang
