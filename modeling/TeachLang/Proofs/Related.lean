import TeachLang.Proofs.Scopes

/-!
# Related scopes

Two lists of scopes are **related** if they are the same but for what their variables hold, and
what corresponding variables hold is related. Every operation on scopes keeps related scopes
related, and a name that one of them resolves is resolved by the other in the same place.

Later a relation will be between the types of variables and their values, so that one side is what
is known of a running program and the other the program itself.
-/

namespace TeachLang

variable {V W F : Type} {R : V → W → Prop}

/-- Two variables of one name that hold related things. -/
def Bound (R : V → W → Prop) (x : String × V) (y : String × W) : Prop := x.1 = y.1 ∧ R x.2 y.2

/-- Two scopes that are the same but for what their variables hold, which is related. -/
structure Scope.Related (R : V → W → Prop) (a : Scope V F) (b : Scope W F) : Prop where
  /-- they are nested alike -/
  parent : a.parent = b.parent
  /-- they have the same functions -/
  functions : a.functions = b.functions
  /-- their variables have the same names, in the same order -/
  bindings : List.Forall₂ (Bound R) a.bindings b.bindings

/-- Two lists of scopes whose scopes are related place by place. -/
def Scopes.Related (R : V → W → Prop) (s : Scopes V F) (t : Scopes W F) : Prop :=
  ∀ id, Option.Rel (Scope.Related R) (s.get? id) (t.get? id)

/-! ## One scope -/

/-- Under a name both find related values, or neither finds one. -/
theorem lookup_related {as : List (String × V)} {bs : List (String × W)}
    (h : List.Forall₂ (Bound R) as bs) (name : String) :
    Option.Rel R (as.lookup name) (bs.lookup name) := by
  induction h with
  | nil => exact .none
  | cons hab _ ih =>
    obtain ⟨hn, hr⟩ := hab
    rw [List.lookup_cons, List.lookup_cons, hn]
    split
    · exact .some hr
    · exact ih

theorem isSome_eq_of_rel {a : Option V} {b : Option W} (h : Option.Rel R a b) :
    a.isSome = b.isSome := by
  cases h <;> rfl

/-- Another value for a variable need only be related to what the variable's partner holds. -/
theorem rebind_related {as : List (String × V)} {bs : List (String × W)}
    (h : List.Forall₂ (Bound R) as bs) {name : String} {v : V} {w : W}
    (hv : as.lookup name = some v) (hw : R v w) :
    List.Forall₂ (Bound R) as (Scope.rebind name w bs) := by
  induction h with
  | nil => exact .nil
  | @cons a b as bs hab hrest ih =>
    obtain ⟨n, u⟩ := b
    obtain ⟨hn, hr⟩ := hab
    rw [List.lookup_cons, hn] at hv
    rw [Scope.rebind]
    by_cases hname : n = name
    · rw [if_pos hname]
      simp only [hname, beq_self_eq_true] at hv
      obtain rfl := Option.some.inj hv
      exact .cons ⟨hn, hw⟩ hrest
    · rw [if_neg hname]
      simp only [beq_eq_false_iff_ne.mpr (Ne.symm hname)] at hv
      exact .cons ⟨hn, hr⟩ (ih hv)

namespace Scopes

/-! ## All scopes -/

theorem Related.depth_eq {s : Scopes V F} {t : Scopes W F} (h : Related R s t) :
    s.depth = t.depth := by
  have live_iff : ∀ id, id < s.depth ↔ id < t.depth := by
    intro id
    rw [← isSome_get?, ← isSome_get?, isSome_eq_of_rel (h id)]
  have hs := live_iff s.depth
  have ht := live_iff t.depth
  omega

/-- Related scopes are nested alike. -/
theorem Related.map_parent {s : Scopes V F} {t : Scopes W F} (h : Related R s t) (id : Nat) :
    (s.get? id).map Scope.parent = (t.get? id).map Scope.parent := by
  have hid := h id
  rcases hs : s.get? id with _ | a <;> rcases ht : t.get? id with _ | b <;> rw [hs, ht] at hid
  · rfl
  · cases hid
  · cases hid
  · cases hid with
    | some hab => exact congrArg some hab.parent

theorem Related.chain_eq {s : Scopes V F} {t : Scopes W F} (h : Related R s t) :
    s.chain = t.chain := by
  funext id
  rw [chain, chain, h.depth_eq, outward_congr h.map_parent]

theorem Related.bindings {s : Scopes V F} {t : Scopes W F} (h : Related R s t) (id : Nat) :
    List.Forall₂ (Bound R) (s.bindings id) (t.bindings id) := by
  have hid := h id
  rw [Scopes.bindings, Scopes.bindings]
  rcases hs : s.get? id with _ | a <;> rcases ht : t.get? id with _ | b <;> rw [hs, ht] at hid
  · exact .nil
  · cases hid
  · cases hid
  · cases hid with
    | some hab => exact hab.bindings

/-- A scope has variables of the same names, with related values. -/
theorem Related.variableIn? {s : Scopes V F} {t : Scopes W F} (h : Related R s t) (name : String)
    (id : Nat) : Option.Rel R (s.variableIn? name id) (t.variableIn? name id) := by
  rw [variableIn?_eq, variableIn?_eq]
  exact lookup_related (h.bindings id) name

theorem Related.functionIn?_eq {s : Scopes V F} {t : Scopes W F} (h : Related R s t) (name : String)
    (arity id : Nat) : s.functionIn? name arity id = t.functionIn? name arity id := by
  have hid := h id
  rcases hs : s.get? id with _ | a <;> rcases ht : t.get? id with _ | b <;> rw [hs, ht] at hid
  · rw [functionIn?, functionIn?, hs, ht]
    rfl
  · cases hid
  · cases hid
  · cases hid with
    | some hab => rw [Scopes.functionIn?_eq hs, Scopes.functionIn?_eq ht, hab.functions]

/-! ## Resolving names -/

/-- The nearest variable is the one in the nearest scope that has one. -/
theorem nearestVariable?_eq_home? (s : Scopes V F) (id : Nat) (name : String) :
    s.nearestVariable? id name = (s.home? id name).bind (s.variableIn? name) := by
  rw [nearestVariable?, home?]
  induction s.chain id with
  | nil => rfl
  | cons i is ih =>
    rw [List.findSome?_cons, List.find?_cons]
    rcases hi : s.variableIn? name i with _ | v
    · exact ih
    · exact hi.symm

/-- A name is resolved in the same place by both. -/
theorem Related.home?_eq {s : Scopes V F} {t : Scopes W F} (h : Related R s t) (id : Nat)
    (name : String) : s.home? id name = t.home? id name := by
  rw [home?, home?, h.chain_eq]
  congr 1
  funext i
  exact isSome_eq_of_rel (h.variableIn? name i)

/-- The nearest variable is in the same scope, with a related value. -/
theorem Related.nearestVariable? {s : Scopes V F} {t : Scopes W F} (h : Related R s t) (id : Nat)
    (name : String) : Option.Rel R (s.nearestVariable? id name) (t.nearestVariable? id name) := by
  rw [nearestVariable?_eq_home?, nearestVariable?_eq_home?, h.home?_eq]
  cases t.home? id name with
  | none => exact .none
  | some home => exact h.variableIn? name home

theorem Related.nearestFunction?_eq {s : Scopes V F} {t : Scopes W F} (h : Related R s t) (id : Nat)
    (name : String) (arity : Nat) :
    s.nearestFunction? id name arity = t.nearestFunction? id name arity := by
  rw [Scopes.nearestFunction?, Scopes.nearestFunction?, h.chain_eq]
  congr 1
  funext i
  exact h.functionIn?_eq name arity i

/-! ## Operations -/

/-- New scopes are related, as they are empty. -/
theorem Related.child {s : Scopes V F} {t : Scopes W F} (h : Related R s t) (p : Nat) :
    Related R (s.child p) (t.child p) := by
  intro id
  rw [get?_child, get?_child, h.depth_eq]
  split
  · exact .some ⟨rfl, rfl, .nil⟩
  · exact h id

/-- Scopes are released on both sides, never the root. -/
theorem Related.release {s : Scopes V F} {t : Scopes W F} (h : Related R s t) {place : Nat}
    (hplace : 0 < place) : Related R (s.release place) (t.release place) := by
  intro id
  rw [get?_release hplace, get?_release hplace]
  split
  · exact h id
  · exact .none

/-- Changes that keep a scope related to its partner keep all scopes related. -/
theorem Related.modify {s : Scopes V F} {t : Scopes W F} (h : Related R s t) (home : Nat)
    {f : Scope V F → Scope V F} {g : Scope W F → Scope W F}
    (hfg : ∀ a b, s.get? home = some a → Scope.Related R a b → Scope.Related R (f a) (g b)) :
    Related R ⟨s.scopes.modify home f⟩ ⟨t.scopes.modify home g⟩ := by
  intro id
  change Option.Rel _ (s.scopes.modify home f)[id]? (t.scopes.modify home g)[id]?
  rw [Array.getElem?_modify, Array.getElem?_modify]
  have hid := h id
  by_cases hhome : home = id
  · subst hhome
    rw [if_pos rfl, if_pos rfl]
    change Option.Rel _ ((s.get? home).map f) ((t.get? home).map g)
    rcases hs : s.get? home with _ | a <;> rcases ht : t.get? home with _ | b <;>
      rw [hs, ht] at hid
    · exact .none
    · cases hid
    · cases hid
    · cases hid with
      | some hab => exact .some (hfg a b hs hab)
  · rw [if_neg hhome, if_neg hhome]
    exact hid

/-- Related variables may be added in one scope. -/
theorem Related.extend {s : Scopes V F} {t : Scopes W F} (h : Related R s t) (home : Nat)
    {as : List (String × V)} {bs : List (String × W)} (hab : List.Forall₂ (Bound R) as bs) :
    Related R (s.extend home as) (t.extend home bs) :=
  h.modify home fun _ _ _ hrel => by
    refine ⟨hrel.parent, hrel.functions, ?_⟩
    rw [Scope.bindings_extend, Scope.bindings_extend]
    exact List.rel_append hrel.bindings hab

theorem Related.addFunction {s : Scopes V F} {t : Scopes W F} (h : Related R s t)
    (key : String × Nat) (f : F) : Related R (s.addFunction key f) (t.addFunction key f) :=
  h.modify root fun _ _ _ hrel => by
    refine ⟨hrel.parent, ?_, hrel.bindings⟩
    rw [Scope.functions_addFunction, Scope.functions_addFunction, hrel.functions]

/-- A definition in a scope without the name adds the variable. -/
theorem defineVariable_eq {t : Scopes W F} {id : Nat} {name : String}
    (h : t.variableIn? name id = none) (w : W) (position : Position) :
    t.defineVariable id name w position = .ok (t.extend id [(name, w)]) := by
  rw [defineVariable, h]
  rfl

theorem eq_extend_of_defineVariable {t t' : Scopes W F} {id : Nat} {name : String} {w : W}
    {position : Position} (h : t.defineVariable id name w position = .ok t') :
    t.variableIn? name id = none ∧ t' = t.extend id [(name, w)] := by
  rcases hin : t.variableIn? name id with _ | u
  · rw [defineVariable_eq hin] at h
    exact ⟨rfl, (Except.ok.inj h).symm⟩
  · rw [defineVariable, hin] at h
    cases h

/-- A definition of a function that the root does not have adds it. -/
theorem defineFunction_eq {t : Scopes W F} {name : String} {arity : Nat}
    (h : t.functionIn? name arity root = none) (f : F) (position : Position) :
    t.defineFunction root name arity f position = .ok (t.addFunction (name, arity) f) := by
  rw [defineFunction, h]
  rfl

theorem eq_addFunction_of_defineFunction {t t' : Scopes W F} {name : String} {arity : Nat} {f : F}
    {position : Position} (h : t.defineFunction root name arity f position = .ok t') :
    t.functionIn? name arity root = none ∧ t' = t.addFunction (name, arity) f := by
  rcases hin : t.functionIn? name arity root with _ | g
  · rw [defineFunction_eq hin] at h
    exact ⟨rfl, (Except.ok.inj h).symm⟩
  · rw [defineFunction, hin] at h
    cases h

/-- A variable that is known to one side can be given every value that is related to what that
side knows. -/
theorem Related.assign {s : Scopes V F} {t : Scopes W F} (h : Related R s t) {id : Nat}
    {name : String} {v : V} {w : W} (hv : s.nearestVariable? id name = some v) (hw : R v w)
    (position : Position) : ∃ t', t.assign id name w position = .ok t' ∧ Related R s t' := by
  rw [nearestVariable?_eq_home?] at hv
  -- both sides assign in the scope where the name is found
  obtain ⟨home, hhome, hin⟩ := Option.bind_eq_some_iff.mp hv
  rw [h.home?_eq] at hhome
  refine ⟨_, by rw [Scopes.assign, hhome], ?_⟩
  have hmodify : Related R ⟨s.scopes.modify home fun scope => scope⟩
      ⟨t.scopes.modify home (·.setVariable name w)⟩ := by
    refine h.modify home fun a b ha hab => ⟨hab.parent, hab.functions, ?_⟩
    rw [Scopes.variableIn?_eq, bindings_eq ha] at hin
    rw [Scope.bindings_setVariable]
    exact rebind_related hab.bindings hin hw
  -- the side that knows is not changed
  have hsame : (⟨s.scopes.modify home fun scope => scope⟩ : Scopes V F) = s := by
    apply ext_get?
    intro i
    change (s.scopes.modify home fun scope => scope)[i]? = s.scopes[i]?
    rw [Array.getElem?_modify]
    split <;> simp
  rwa [hsame] at hmodify

end Scopes

end TeachLang
