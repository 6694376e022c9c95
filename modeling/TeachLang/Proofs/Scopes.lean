import Mathlib.Data.List.Forall2
import TeachLang.Scope

/-!
# Scopes as chains

A scope is only ever asked for what it and the scopes around it hold. So all that a place in the
list of scopes means is its **view**: the variables of the scope and of those around it, the
innermost first. The operations on scopes are described by what they do to views.

`Rooted` is the shape that all scopes of checking and running have: every scope but the root is
nested in an earlier one, and functions are in the root. The laws of views rest on it.
-/

namespace TeachLang

/-- Of two entries under one key the earlier counts, so another entry at the end only counts if its
key is new. -/
theorem lookup_concat {K V : Type} [BEq K] [LawfulBEq K] [DecidableEq K] (entries : List (K × V))
    (key : K) (value : V) (k : K) :
    (entries ++ [(key, value)]).lookup k =
      (entries.lookup k).or (if k = key then some value else none) := by
  rw [List.lookup_append, List.lookup_cons, List.lookup_nil]
  by_cases hk : k = key
  · rw [if_pos hk, beq_iff_eq.mpr hk]
  · rw [if_neg hk, beq_eq_false_iff_ne.mpr hk]

/-- Adds variables to a scope, whether it has some of their names or not. -/
def Scope.extend {V F : Type} (scope : Scope V F) (added : List (String × V)) : Scope V F :=
  { scope with
    variableTable := added.foldl (fun table v => table.push v.1 v.2) scope.variableTable }

@[simp] theorem Scope.bindings_extend {V F : Type} (scope : Scope V F)
    (added : List (String × V)) : (scope.extend added).bindings = scope.bindings ++ added := by
  have hpush : ∀ (added : List (String × V)) (table : Table String V),
      (added.foldl (fun table v => table.push v.1 v.2) table).toList = table.toList ++ added := by
    intro added
    induction added with
    | nil => simp
    | cons v added ih =>
      intro table
      rw [List.foldl_cons, ih, Table.toList_push, List.append_assoc, List.singleton_append]
  exact hpush added scope.variableTable

@[simp] theorem Scope.functions_extend {V F : Type} (scope : Scope V F)
    (added : List (String × V)) : (scope.extend added).functions = scope.functions := rfl

/-- Another value does not change under which names there are values. -/
theorem Scope.map_fst_rebind {V : Type} (name : String) (value : V) (bindings : List (String × V)) :
    (Scope.rebind name value bindings).map Prod.fst = bindings.map Prod.fst := by
  induction bindings with
  | nil => rfl
  | cons binding bindings ih =>
    rw [Scope.rebind]
    split
    · next hn => simp [hn]
    · simp [ih]

namespace Scopes

variable {V W F : Type}

/-- Every scope but the root is nested in an earlier one, and only the root has functions. -/
structure Rooted (s : Scopes V F) : Prop where
  /-- there is a root -/
  live : 0 < s.depth
  /-- how each scope is nested -/
  nested : ∀ {id scope}, s.get? id = some scope →
    (scope.parent = none ∧ id = root) ∨
      ∃ p, scope.parent = some p ∧ p < id ∧ scope.functions = []

/-- Every scope but the root is nested in an earlier one. -/
structure Ordered (s : Scopes V F) : Prop where
  /-- there is a root -/
  live : 0 < s.depth
  /-- how each scope is nested -/
  nested : ∀ {id scope}, s.get? id = some scope →
    (scope.parent = none ∧ id = root) ∨ ∃ p, scope.parent = some p ∧ p < id

theorem Rooted.ordered {s : Scopes V F} (hs : s.Rooted) : s.Ordered :=
  ⟨hs.live, fun h => (hs.nested h).imp_right fun ⟨p, hp, hlt, _⟩ => ⟨p, hp, hlt⟩⟩

/-- The variables that can be seen from a place, those of each scope together and the innermost
scope first. -/
def view (s : Scopes V F) (id : Nat) : List (List (String × V)) := (s.chain id).map s.bindings

/-- Adds variables to a scope, whether it has some of their names or not. -/
def extend (s : Scopes V F) (id : Nat) (added : List (String × V)) : Scopes V F :=
  ⟨s.scopes.modify id (·.extend added)⟩

/-- Adds a function to the root, whether it has one of the name and arity or not. -/
def addFunction (s : Scopes V F) (key : String × Nat) (f : F) : Scopes V F :=
  ⟨s.scopes.modify root (·.addFunction key f)⟩

/-! ## Places -/

theorem get?_eq_some_of_lt {s : Scopes V F} {id : Nat} (h : id < s.depth) :
    ∃ scope, s.get? id = some scope :=
  ⟨s.scopes[id], Array.getElem?_eq_getElem h⟩

theorem lt_of_get?_eq_some {s : Scopes V F} {id : Nat} {scope : Scope V F}
    (h : s.get? id = some scope) : id < s.depth :=
  (Array.getElem?_eq_some_iff.mp h).1

theorem isSome_get? {s : Scopes V F} {id : Nat} : (s.get? id).isSome ↔ id < s.depth := by
  constructor
  · intro h
    obtain ⟨scope, hscope⟩ := Option.isSome_iff_exists.mp h
    exact lt_of_get?_eq_some hscope
  · intro h
    obtain ⟨scope, hscope⟩ := get?_eq_some_of_lt h
    exact Option.isSome_iff_exists.mpr ⟨scope, hscope⟩

theorem get?_child (s : Scopes V F) (p id : Nat) :
    (s.child p).get? id = if id = s.depth then some (.empty (some p)) else s.get? id :=
  Array.getElem?_push

theorem get?_modify (s : Scopes V F) (home : Nat) (change : Scope V F → Scope V F) (id : Nat) :
    (⟨s.scopes.modify home change⟩ : Scopes V F).get? id =
      if home = id then (s.get? id).map change else s.get? id :=
  Array.getElem?_modify

@[simp] theorem depth_modify (s : Scopes V F) (home : Nat) (change : Scope V F → Scope V F) :
    (⟨s.scopes.modify home change⟩ : Scopes V F).depth = s.depth :=
  Array.size_modify

theorem get?_extend (s : Scopes V F) (home id : Nat) (added : List (String × V)) :
    (s.extend home added).get? id =
      if home = id then (s.get? id).map (·.extend added) else s.get? id :=
  Array.getElem?_modify

theorem get?_addFunction (s : Scopes V F) (key : String × Nat) (f : F) (id : Nat) :
    (s.addFunction key f).get? id =
      if root = id then (s.get? id).map (·.addFunction key f) else s.get? id :=
  Array.getElem?_modify

theorem fresh_eq (s : Scopes V F) : s.fresh = s.depth := rfl

@[simp] theorem depth_child (s : Scopes V F) (p : Nat) : (s.child p).depth = s.depth + 1 :=
  Array.size_push _

@[simp] theorem depth_extend (s : Scopes V F) (id : Nat) (added : List (String × V)) :
    (s.extend id added).depth = s.depth :=
  Array.size_modify

@[simp] theorem depth_addFunction (s : Scopes V F) (key : String × Nat) (f : F) :
    (s.addFunction key f).depth = s.depth :=
  Array.size_modify

theorem get?_release {s : Scopes V F} {place : Nat} (h : 0 < place) (id : Nat) :
    (s.release place).get? id = if id < place then s.get? id else none := by
  have hmax : max place 1 = place := Nat.max_eq_left h
  change (s.scopes.shrink (max place 1))[id]? = if id < place then s.scopes[id]? else none
  rw [hmax, Array.shrink_eq_take, Array.take_eq_extract, Array.getElem?_extract, Nat.zero_add,
    Nat.sub_zero]
  split
  · rw [if_pos (by omega)]
  · split
    · rw [Array.getElem?_eq_none (by omega)]
    · rfl

/-- Scopes are the same if they are the same in every place. -/
theorem ext_get? {s t : Scopes V F} (h : ∀ id, s.get? id = t.get? id) : s = t := by
  obtain ⟨a⟩ := s
  obtain ⟨b⟩ := t
  exact congrArg Scopes.mk (Array.ext_getElem? h)

@[simp] theorem extend_nil (s : Scopes V F) (home : Nat) : s.extend home [] = s := by
  apply ext_get?
  intro id
  rw [get?_extend]
  split
  · cases s.get? id <;> rfl
  · rfl

theorem extend_extend (s : Scopes V F) (home : Nat) (first second : List (String × V)) :
    (s.extend home first).extend home second = s.extend home (first ++ second) := by
  apply ext_get?
  intro id
  simp only [get?_extend]
  split
  · cases s.get? id with
    | none => rfl
    | some scope => exact congrArg some (Scope.ext_lists rfl (by simp) rfl)
  · rfl

/-- Releasing a scope takes back that it was added, and all that was defined in it. -/
theorem release_extend_child {s : Scopes V F} (hs : 0 < s.depth) (p : Nat)
    (added : List (String × V)) : ((s.child p).extend s.fresh added).release s.fresh = s := by
  apply ext_get?
  intro id
  rw [fresh_eq, get?_release hs, get?_extend, get?_child]
  -- the new scope lies behind all others, which were not changed
  rcases Nat.lt_or_ge id s.depth with hid | hid
  · rw [if_pos hid, if_neg (by omega), if_neg (by omega)]
  · rw [if_neg (by omega)]
    exact (Array.getElem?_eq_none hid).symm

/-! ## Chains -/

theorem outward_succ {s : Scopes V F} {id : Nat} {scope : Scope V F}
    (h : s.get? id = some scope) (limit : Nat) :
    s.outward (limit + 1) id = id :: scope.parent.elim [] (s.outward limit) := by
  rw [outward, h]

/-- More scopes than lie before a place are not searched. -/
theorem Ordered.outward_eq {s : Scopes V F} (hs : s.Ordered) :
    ∀ {id : Nat}, id < s.depth → ∀ limit, id < limit →
      s.outward limit id = s.outward (id + 1) id := by
  intro id
  induction id using Nat.strongRecOn with
  | ind id ih =>
    intro hid limit hlimit
    obtain ⟨scope, hscope⟩ := get?_eq_some_of_lt hid
    obtain ⟨n, rfl⟩ : ∃ n, limit = n + 1 := ⟨limit - 1, by omega⟩
    rw [outward_succ hscope, outward_succ hscope]
    -- a parent lies before its child, so that one step less is still enough for it
    rcases hs.nested hscope with ⟨hp, -⟩ | ⟨p, hp, hlt⟩
    · rw [hp]
      rfl
    · rw [hp]
      simp only [Option.elim_some]
      rw [ih p hlt (by omega) n (by omega), ih p hlt (by omega) id (by omega)]

/-- The chain of a place is the place and the chain of the scope around it. -/
theorem Ordered.chain_eq {s : Scopes V F} (hs : s.Ordered) {id : Nat} {scope : Scope V F}
    (h : s.get? id = some scope) : s.chain id = id :: scope.parent.elim [] s.chain := by
  have hid := lt_of_get?_eq_some h
  rw [chain, hs.outward_eq hid s.depth hid, outward_succ h]
  rcases hs.nested h with ⟨hp, -⟩ | ⟨p, hp, hlt⟩
  · rw [hp]
    rfl
  · rw [hp]
    simp only [Option.elim_some, chain]
    rw [hs.outward_eq (by omega) id hlt, hs.outward_eq (by omega) s.depth (by omega)]

/-- Nothing behind a place is searched from it. -/
theorem Ordered.le_of_mem_chain {s : Scopes V F} (hs : s.Ordered) :
    ∀ {id : Nat}, id < s.depth → ∀ {i : Nat}, i ∈ s.chain id → i ≤ id := by
  intro id
  induction id using Nat.strongRecOn with
  | ind id ih =>
    intro hid i hi
    obtain ⟨scope, hscope⟩ := get?_eq_some_of_lt hid
    rw [hs.chain_eq hscope] at hi
    rcases List.mem_cons.mp hi with rfl | hi
    · exact Nat.le_refl _
    · rcases hs.nested hscope with ⟨hp, -⟩ | ⟨p, hp, hlt⟩
      · rw [hp] at hi
        cases hi
      · rw [hp] at hi
        exact Nat.le_trans (ih p hlt (by omega) hi) (Nat.le_of_lt hlt)

theorem Rooted.chain_eq {s : Scopes V F} (hs : s.Rooted) {id : Nat} {scope : Scope V F}
    (h : s.get? id = some scope) : s.chain id = id :: scope.parent.elim [] s.chain :=
  hs.ordered.chain_eq h

theorem bindings_eq {s : Scopes V F} {id : Nat} {scope : Scope V F} (h : s.get? id = some scope) :
    s.bindings id = scope.bindings := by
  rw [bindings, h]
  rfl

/-- The view from a scope is that from the scope around it, behind its own variables. -/
theorem Rooted.view_eq {s : Scopes V F} (hs : s.Rooted) {id : Nat} {scope : Scope V F}
    (h : s.get? id = some scope) : s.view id = scope.bindings :: scope.parent.elim [] s.view := by
  rw [view, hs.chain_eq h, List.map_cons, bindings_eq h]
  cases scope.parent <;> rfl

/-- From the root only the root is seen. -/
theorem Rooted.view_root {s : Scopes V F} (hs : s.Rooted) : s.view root = [s.bindings root] := by
  obtain ⟨scope, h⟩ : ∃ scope, s.get? root = some scope := get?_eq_some_of_lt hs.live
  rw [hs.view_eq h, bindings_eq h]
  rcases hs.nested h with ⟨hp, -⟩ | ⟨p, -, hlt, -⟩
  · rw [hp]
    rfl
  · exact absurd hlt (Nat.not_lt_zero p)

/-- The chain of a place only depends on how the scopes are nested. -/
theorem outward_congr {s : Scopes V F} {t : Scopes W F}
    (h : ∀ id, (s.get? id).map Scope.parent = (t.get? id).map Scope.parent) :
    ∀ limit id, s.outward limit id = t.outward limit id := by
  intro limit
  induction limit with
  | zero => intro id; rfl
  | succ n ih =>
    intro id
    have hid := h id
    rcases hs : s.get? id with _ | a <;> rcases ht : t.get? id with _ | b <;>
      rw [hs, ht] at hid
    · rw [outward, outward, hs, ht]
    · simp at hid
    · simp at hid
    · have hp : a.parent = b.parent := Option.some.inj hid
      rw [outward_succ hs, outward_succ ht, hp]
      cases b.parent with
      | none => rfl
      | some p => exact congrArg (id :: ·) (ih p)

/-! ## Looking up -/

/-- In one scope a name means its first binding. -/
theorem variableIn?_eq (s : Scopes V F) (name : String) (id : Nat) :
    s.variableIn? name id = (s.bindings id).lookup name := by
  rw [variableIn?, bindings]
  cases s.get? id with
  | none => rfl
  | some scope => exact scope.get?_variableTable name

/-- In one scope a key means its first function. -/
theorem functionIn?_eq {s : Scopes V F} {id : Nat} {scope : Scope V F}
    (h : s.get? id = some scope) (name : String) (arity : Nat) :
    s.functionIn? name arity id = scope.functions.lookup (name, arity) := by
  rw [functionIn?, h]
  exact scope.get?_functionTable (name, arity)

theorem functionIn?_ofFunctions (functions : List ((String × Nat) × F)) (name : String)
    (arity : Nat) : (ofFunctions functions : Scopes V F).functionIn? name arity root =
      functions.lookup (name, arity) := by
  have hroot : (ofFunctions functions : Scopes V F).get? root = some (.ofLists none [] functions) :=
    rfl
  exact functionIn?_eq hroot name arity

/-- A name means the nearest variable in the view. -/
theorem nearestVariable?_eq (s : Scopes V F) (id : Nat) (name : String) :
    s.nearestVariable? id name = (s.view id).findSome? (·.lookup name) := by
  rw [nearestVariable?, view, List.findSome?_map]
  congr 1
  funext i
  exact variableIn?_eq s name i

/-- Only the root has functions, so a call means the function of the root. -/
theorem Rooted.nearestFunction?_eq {s : Scopes V F} (hs : s.Rooted) (name : String) (arity : Nat) :
    ∀ {id : Nat}, id < s.depth →
      s.nearestFunction? id name arity = s.functionIn? name arity root := by
  intro id
  induction id using Nat.strongRecOn with
  | ind id ih =>
    intro hid
    obtain ⟨scope, hscope⟩ := get?_eq_some_of_lt hid
    rw [nearestFunction?, hs.chain_eq hscope, List.findSome?_cons]
    rcases hs.nested hscope with ⟨hp, rfl⟩ | ⟨p, hp, hlt, hf⟩
    · rw [hp]
      cases s.functionIn? name arity root <;> rfl
    -- a scope with a parent has no functions, so the search goes on outward
    · have hnone : s.functionIn? name arity id = none := by
        rw [functionIn?_eq hscope, hf, List.lookup_nil]
      rw [hnone, hp]
      exact ih p hlt (by omega)

/-! ## What the operations do to views -/

theorem rooted_ofFunctions (functions : List ((String × Nat) × F)) :
    (ofFunctions functions : Scopes V F).Rooted := by
  refine ⟨Nat.one_pos, fun {id scope} h => ?_⟩
  have hid : id < 1 := lt_of_get?_eq_some h
  obtain rfl : id = root := by
    have : root = 0 := rfl
    omega
  obtain rfl := Option.some.inj h
  exact .inl ⟨rfl, rfl⟩

theorem Rooted.child {s : Scopes V F} (hs : s.Rooted) {p : Nat} (hp : p < s.depth) :
    (s.child p).Rooted := by
  refine ⟨by rw [depth_child]; omega, fun {id scope} h => ?_⟩
  rw [get?_child] at h
  split at h
  · obtain rfl := Option.some.inj h
    exact .inr ⟨p, rfl, by omega, rfl⟩
  · exact hs.nested h

/-- A change of definitions that keeps the nesting, and adds functions to the root only, keeps
the shape. -/
theorem Rooted.of_parents {s : Scopes V F} {t : Scopes W F} (hs : s.Rooted)
    (hlive : t.depth = s.depth)
    (h : ∀ {id b}, t.get? id = some b → ∃ a, s.get? id = some a ∧ b.parent = a.parent ∧
      (id ≠ root → b.functions = a.functions)) : t.Rooted := by
  refine ⟨by rw [hlive]; exact hs.live, fun {id b} hb => ?_⟩
  obtain ⟨a, ha, hpar, hfun⟩ := h hb
  rcases hs.nested ha with ⟨hp, hid⟩ | ⟨p, hp, hlt, hf⟩
  · exact .inl ⟨hpar.trans hp, hid⟩
  -- what has a parent is not the root, so its functions are as they were
  · have hne : id ≠ root := Nat.ne_of_gt (Nat.lt_of_le_of_lt (Nat.zero_le p) hlt)
    exact .inr ⟨p, hpar.trans hp, hlt, (hfun hne).trans hf⟩

theorem Rooted.extend {s : Scopes V F} (hs : s.Rooted) (home : Nat) (added : List (String × V)) :
    (s.extend home added).Rooted := by
  refine hs.of_parents (depth_extend ..) fun {id b} hb => ?_
  rw [get?_extend] at hb
  split at hb
  · obtain ⟨a, ha, rfl⟩ := Option.map_eq_some_iff.mp hb
    exact ⟨a, ha, rfl, fun _ => rfl⟩
  · exact ⟨b, hb, rfl, fun _ => rfl⟩

theorem Rooted.addFunction {s : Scopes V F} (hs : s.Rooted) (key : String × Nat) (f : F) :
    (s.addFunction key f).Rooted := by
  refine hs.of_parents (depth_addFunction ..) fun {id b} hb => ?_
  rw [get?_addFunction] at hb
  split at hb
  · next hid =>
    obtain ⟨a, ha, rfl⟩ := Option.map_eq_some_iff.mp hb
    exact ⟨a, ha, rfl, fun hne => absurd hid.symm hne⟩
  · exact ⟨b, hb, rfl, fun _ => rfl⟩

/-- From a new scope nothing more is seen than from the one that it is nested in. -/
theorem Rooted.view_child {s : Scopes V F} (hs : s.Rooted) {p : Nat} (hp : p < s.depth) :
    (s.child p).view s.fresh = [] :: s.view p := by
  have hfresh : (s.child p).get? s.fresh = some (.empty (some p)) := by
    rw [get?_child]
    exact if_pos rfl
  rw [(hs.child hp).view_eq hfresh]
  change [] :: (s.child p).view p = [] :: s.view p
  congr 1
  -- the new scope is not in reach of the older ones
  clear hfresh
  suffices h : ∀ {id : Nat}, id < s.depth → (s.child p).view id = s.view id from h hp
  intro id
  induction id using Nat.strongRecOn with
  | ind id ih =>
    intro hid
    obtain ⟨scope, hscope⟩ := get?_eq_some_of_lt hid
    have hchild : (s.child p).get? id = some scope := by
      rw [get?_child, if_neg (by omega), hscope]
    rw [hs.view_eq hscope, (hs.child hp).view_eq hchild]
    rcases hs.nested hscope with ⟨hq, -⟩ | ⟨q, hq, hlt, -⟩
    · rw [hq]
      rfl
    · rw [hq]
      exact congrArg (scope.bindings :: ·) (ih q hlt (by omega))

theorem map_parent_extend (s : Scopes V F) (home : Nat) (added : List (String × V)) (id : Nat) :
    ((s.extend home added).get? id).map Scope.parent = (s.get? id).map Scope.parent := by
  rw [get?_extend]
  split <;> cases s.get? id <;> rfl

theorem bindings_extend_self {s : Scopes V F} {home : Nat} (h : home < s.depth)
    (added : List (String × V)) :
    (s.extend home added).bindings home = s.bindings home ++ added := by
  obtain ⟨scope, hscope⟩ := get?_eq_some_of_lt h
  have : (s.extend home added).get? home = some (scope.extend added) := by
    rw [get?_extend, if_pos rfl, hscope]
    rfl
  rw [bindings_eq this, bindings_eq hscope, Scope.bindings_extend]

theorem bindings_extend_ne {s : Scopes V F} {home id : Nat} (h : id ≠ home)
    (added : List (String × V)) : (s.extend home added).bindings id = s.bindings id := by
  rw [bindings, bindings, get?_extend, if_neg (Ne.symm h)]

/-- Variables that are added to a scope are seen from it, behind those that it had. -/
theorem Rooted.view_extend {s : Scopes V F} (hs : s.Rooted) {id : Nat} (hid : id < s.depth)
    (added : List (String × V)) :
    (s.extend id added).view id = (s.bindings id ++ added) :: (s.view id).tail := by
  obtain ⟨scope, hscope⟩ := get?_eq_some_of_lt hid
  have hchain : (s.extend id added).chain = s.chain := by
    funext i
    rw [chain, chain, depth_extend, outward_congr (map_parent_extend s id added)]
  rw [view, view, hchain, hs.chain_eq hscope, List.map_cons, List.map_cons, List.tail_cons,
    bindings_extend_self hid]
  congr 1
  refine List.map_congr_left fun i hi => bindings_extend_ne ?_ added
  -- the scopes around a scope lie before it
  rcases hs.nested hscope with ⟨hp, -⟩ | ⟨p, hp, hlt, -⟩
  · rw [hp] at hi
    cases hi
  · rw [hp] at hi
    exact Nat.ne_of_lt (Nat.lt_of_le_of_lt (hs.ordered.le_of_mem_chain (by omega) hi) hlt)

/-! ## The root -/

theorem Rooted.get?_child_root {s : Scopes V F} (hs : s.Rooted) (p : Nat) :
    (s.child p).get? root = s.get? root := by
  rw [get?_child]
  exact if_neg (Nat.ne_of_lt hs.live)

/-- A new scope changes nothing in the root. -/
theorem Rooted.bindings_child_root {s : Scopes V F} (hs : s.Rooted) (p : Nat) :
    (s.child p).bindings root = s.bindings root := by
  rw [bindings, bindings, hs.get?_child_root]

theorem Rooted.functionIn?_child_root {s : Scopes V F} (hs : s.Rooted) (p : Nat) (name : String)
    (arity : Nat) : (s.child p).functionIn? name arity root = s.functionIn? name arity root := by
  rw [functionIn?, functionIn?, hs.get?_child_root]

/-- Variables are no functions. -/
@[simp] theorem functionIn?_extend (s : Scopes V F) (home : Nat) (added : List (String × V))
    (name : String) (arity id : Nat) :
    (s.extend home added).functionIn? name arity id = s.functionIn? name arity id := by
  rw [functionIn?, functionIn?, get?_extend]
  split
  · cases s.get? id <;> rfl
  · rfl

/-- Functions are no variables. -/
@[simp] theorem bindings_addFunction (s : Scopes V F) (key : String × Nat) (f : F) (id : Nat) :
    (s.addFunction key f).bindings id = s.bindings id := by
  rw [bindings, bindings, get?_addFunction]
  split
  · cases s.get? id <;> rfl
  · rfl

/-- A function that is added to the root is found there unless an older one has its key. -/
theorem Rooted.functionIn?_addFunction {s : Scopes V F} (hs : s.Rooted) (key : String × Nat) (f : F)
    (name : String) (arity : Nat) :
    (s.addFunction key f).functionIn? name arity root =
      (s.functionIn? name arity root).or (if (name, arity) = key then some f else none) := by
  obtain ⟨scope, h⟩ : ∃ scope, s.get? root = some scope := get?_eq_some_of_lt hs.live
  have hadded : (s.addFunction key f).get? root = some (scope.addFunction key f) := by
    rw [get?_addFunction, if_pos rfl, h]
    rfl
  rw [functionIn?_eq hadded, functionIn?_eq h, Scope.functions_addFunction]
  exact lookup_concat scope.functions key f (name, arity)

/-- From a place the same variables are seen whatever functions there are. -/
theorem view_addFunction (s : Scopes V F) (key : String × Nat) (f : F) (id : Nat) :
    (s.addFunction key f).view id = s.view id := by
  have hparent : ∀ i, ((s.addFunction key f).get? i).map Scope.parent =
      (s.get? i).map Scope.parent := by
    intro i
    rw [get?_addFunction]
    split <;> cases s.get? i <;> rfl
  rw [view, view, chain, chain, depth_addFunction, outward_congr hparent]
  exact List.map_congr_left fun i _ => bindings_addFunction s key f i

end Scopes

end TeachLang
