import Mathlib.Data.List.Nodup
import TeachLang.Proofs.Levels

/-!
# Scopes and their plain account

A list of scopes that grew by requests from the root alone is in good order (`Scopes.Sound`): every
scope is nested in an older one, and no name is defined twice in one scope. One request keeps it so,
and is answered as in the plain account of the scopes (`Scopes.Sound.perform`).

What a scope leaves behind when it is released is shown along the requests in the same way. As long
as only the scope and newer ones take definitions, what will be left after its release is what was
there before it, with the values that were overwritten since (`Scopes.Leaves`).
-/

namespace TeachLang

variable {K V F : Type}

/-! ## Tables -/

/-- A table that has every key once, and whose index has exactly the places of the entries. -/
structure Table.Exact [BEq K] (t : Table K V) : Prop where
  /-- no key stands in two entries -/
  distinct : (t.toList.map Prod.fst).Nodup
  /-- what the index says of a key -/
  place : ∀ key i, t.place? key = some i ↔ ∃ value, t.entries[i]? = some (key, value)

/-- The index knows the first place of a key, and there is no other if no key stands twice. -/
theorem Table.exact_of_nodup [BEq K] [LawfulBEq K] {t : Table K V}
    (h : (t.toList.map Prod.fst).Nodup) : t.Exact := by
  refine ⟨h, fun key i => ?_⟩
  rw [t.place?_eq, List.findIdx?_eq_some_iff_getElem]
  constructor
  · rintro ⟨hi, hkey, -⟩
    refine ⟨t.toList[i].2, ?_⟩
    rw [← Array.getElem?_toList, ← Table.toList, List.getElem?_eq_getElem hi, eq_of_beq hkey]
  · rintro ⟨value, hentry⟩
    rw [← Array.getElem?_toList, ← Table.toList] at hentry
    obtain ⟨hi, hentry⟩ := List.getElem?_eq_some_iff.mp hentry
    refine ⟨hi, by simp [hentry], fun j hji hkey => ?_⟩
    -- an earlier entry with the key would be a second one
    have hj : j < t.toList.length := Nat.lt_trans hji hi
    have hi' : i < (t.toList.map Prod.fst).length := by simpa using hi
    have hj' : j < (t.toList.map Prod.fst).length := by simpa using hj
    have hsame : (t.toList.map Prod.fst)[j] = (t.toList.map Prod.fst)[i] := by
      simp [hentry, ← eq_of_beq hkey]
    exact absurd ((List.Nodup.getElem_inj_iff h).mp hsame) (Nat.ne_of_lt hji)

namespace Scope

/-- Another value for a name that is known once is another value in every entry of the name. -/
theorem rebind_eq_map {name : String} (value : V) {bindings : List (String × V)}
    (h : (bindings.map Prod.fst).Nodup) : rebind name value bindings =
      bindings.map fun binding => if binding.1 = name then (name, value) else binding := by
  induction bindings with
  | nil => rfl
  | cons binding bindings ih =>
    obtain ⟨n, v⟩ := binding
    rw [List.map_cons, List.nodup_cons] at h
    rw [rebind, List.map_cons, ih h.2]
    by_cases hn : n = name
    · subst hn
      rw [if_pos rfl, if_pos rfl]
      congr 1
      refine (List.map_id _).symm.trans (List.map_congr_left fun other hother => (if_neg ?_).symm)
      intro hsame
      exact h.1 (List.mem_map.mpr ⟨other, hother, hsame⟩)
    · rw [if_neg hn, if_neg hn]

/-- Another value for a name that there is goes into its place, the others stay as they are. -/
theorem exists_rebind {name : String} (value : V) {bindings : List (String × V)}
    (h : (bindings.lookup name).isSome) : ∃ before old after,
      bindings = before ++ (name, old) :: after ∧
        rebind name value bindings = before ++ (name, value) :: after := by
  induction bindings with
  | nil => cases h
  | cons binding bindings ih =>
    obtain ⟨n, v⟩ := binding
    rw [rebind]
    by_cases hn : n = name
    · subst hn
      exact ⟨[], v, bindings, rfl, if_pos rfl⟩
    · rw [List.lookup_cons, beq_eq_false_iff_ne.mpr (Ne.symm hn)] at h
      obtain ⟨before, old, after, hbindings, hrebind⟩ := ih h
      refine ⟨(n, v) :: before, old, after, by rw [hbindings]; rfl, ?_⟩
      rw [if_neg hn, hrebind]
      rfl

end Scope

namespace Scopes

/-! ## What one request can do -/

/-- Gives a variable of a scope another value. -/
def overwrite (s : Scopes V F) (home : Nat) (name : String) (value : V) : Scopes V F :=
  ⟨s.scopes.modify home (·.setVariable name value)⟩

/-- The variables to which a request gives another value: the scope that has it, the name and the
value. -/
def overwrites (s : Scopes V F) : Request V F → List (Nat × String × V)
  | .assign id name value _ => (s.home? id name).elim [] fun home => [(home, name, value)]
  | _ => []

/-- The variables to which requests give other values, in the order of the requests. -/
def overwritten (s : Scopes V F) : List (Request V F) → List (Nat × String × V)
  | [] => []
  | r :: requests => s.overwrites r ++ (s.perform r).2.overwritten requests

/-- What a request comes to. -/
inductive Step (s : Scopes V F) : Request V F → Scopes V F → Prop
  /-- nothing is changed -/
  | same {r} : s.overwrites r = [] → s.Step r s
  /-- there is a new scope -/
  | child (parent : Nat) : s.Step (.child parent) (s.child parent)
  /-- a scope has a variable of a new name -/
  | addVariable {id name value position} : s.variableIn? name id = none →
    s.Step (.defineVariable id name value position) ⟨s.scopes.modify id (·.addVariable name value)⟩
  /-- a scope has a function of a new name and number of parameters -/
  | addFunction {id name arity f position} : s.functionIn? name arity id = none →
    s.Step (.defineFunction id name arity f position)
      ⟨s.scopes.modify id (·.addFunction (name, arity) f)⟩
  /-- the nearest variable of a name has another value -/
  | overwrite {id name value position home} : s.home? id name = some home →
    s.Step (.assign id name value position) (s.overwrite home name value)
  /-- scopes are released -/
  | release (id : Nat) : s.Step (.release id) (s.release id)

theorem step_perform (s : Scopes V F) (r : Request V F) : s.Step r (s.perform r).2 := by
  cases r with
  | child parent => exact .child parent
  | defineVariable id name value position =>
    rw [perform, defineVariable]
    split
    · exact .same rfl
    · next h => exact .addVariable h
  | defineFunction id name arity f position =>
    rw [perform, defineFunction]
    split
    · exact .same rfl
    · next h => exact .addFunction h
  | lookupVariable id name position => exact .same rfl
  | assign id name value position =>
    rw [perform, assign]
    split
    · next h => exact .overwrite h
    · next h => exact .same (by rw [overwrites, h]; rfl)
  | lookupFunction id name arity position => exact .same rfl
  | bindings id => exact .same rfl
  | release id => exact .release id

/-- What could not be done was not begun. -/
theorem perform_eq_of_fault {s : Scopes V F} {r : Request V F} {d : Diagnostic}
    (h : (s.perform r).1 = .fault d) : (s.perform r).2 = s := by
  have hchanged : ∀ {result : Except Diagnostic (Scopes V F)},
      (Reply.changed s result : Reply V F × _).1 = .fault d →
        (Reply.changed s result : Reply V F × _).2 = s := by
    intro result hresult
    cases result with
    | ok new => cases hresult
    | error d => rfl
  cases r with
  | defineVariable id name value position => exact hchanged h
  | defineFunction id name arity f position => exact hchanged h
  | assign id name value position => exact hchanged h
  | lookupVariable id name position => rfl
  | lookupFunction id name arity position => rfl
  | child parent => cases h
  | bindings id => cases h
  | release id => cases h

/-! ## Good order -/

/-- Every scope is nested in an older one, and no key is defined twice in one scope. -/
structure Sound (s : Scopes V F) : Prop where
  /-- how the scopes are nested -/
  ordered : s.Ordered
  /-- the names of the variables of a scope -/
  names : ∀ {id scope}, s.get? id = some scope → (scope.bindings.map Prod.fst).Nodup
  /-- the names and numbers of parameters of the functions of a scope -/
  keys : ∀ {id scope}, s.get? id = some scope → (scope.functions.map Prod.fst).Nodup

theorem sound_initial : (initial : Scopes V F).Sound := by
  have hroot : ∀ {id : Nat} {scope : Scope V F}, (initial : Scopes V F).get? id = some scope →
      scope = .ofLists none [] [] := by
    intro id scope h
    obtain rfl : id = 0 := Nat.lt_one_iff.mp (lt_of_get?_eq_some h)
    exact (Option.some.inj h).symm
  refine ⟨(rooted_ofFunctions []).ordered, fun h => ?_, fun h => ?_⟩
  · rw [hroot h]
    exact .nil
  · rw [hroot h]
    exact .nil

/-- A change of one scope that does not move it, nor gives it a key twice. -/
theorem Sound.modify {s : Scopes V F} (hs : s.Sound) {home : Nat} {change : Scope V F → Scope V F}
    (h : ∀ {scope}, s.get? home = some scope → (change scope).parent = scope.parent ∧
      ((change scope).bindings.map Prod.fst).Nodup ∧
        ((change scope).functions.map Prod.fst).Nodup) :
    (⟨s.scopes.modify home change⟩ : Scopes V F).Sound := by
  -- each scope is an old one or the changed one
  have hnew : ∀ {id : Nat} {scope : Scope V F},
      (⟨s.scopes.modify home change⟩ : Scopes V F).get? id = some scope →
        ∃ old, s.get? id = some old ∧ scope.parent = old.parent ∧
          (scope.bindings.map Prod.fst).Nodup ∧ (scope.functions.map Prod.fst).Nodup := by
    intro id scope hscope
    rw [get?_modify] at hscope
    split at hscope
    · next hid =>
      subst hid
      obtain ⟨old, hold, rfl⟩ := Option.map_eq_some_iff.mp hscope
      exact ⟨old, hold, h hold⟩
    · exact ⟨scope, hscope, rfl, hs.names hscope, hs.keys hscope⟩
  refine ⟨⟨by simpa using hs.ordered.live, fun hscope => ?_⟩, fun hscope => ?_, fun hscope => ?_⟩
  · obtain ⟨old, hold, hparent, -⟩ := hnew hscope
    rw [hparent]
    exact hs.ordered.nested hold
  · obtain ⟨old, -, -, hnames, -⟩ := hnew hscope
    exact hnames
  · obtain ⟨old, -, -, -, hkeys⟩ := hnew hscope
    exact hkeys

/-- A key that is not found in a list can be added to it. -/
theorem nodup_concat_of_lookup [BEq K] [LawfulBEq K] {entries : List (K × V)} {key : K}
    (h : (entries.map Prod.fst).Nodup) (hnew : entries.lookup key = none) (value : V) :
    ((entries ++ [(key, value)]).map Prod.fst).Nodup := by
  rw [List.map_append, List.nodup_append]
  refine ⟨h, List.nodup_singleton _, fun k hk k' hk' hkk => ?_⟩
  obtain rfl : k' = key := List.mem_singleton.mp hk'
  subst hkk
  obtain ⟨entry, hentry, rfl⟩ := List.mem_map.mp hk
  simpa using List.lookup_eq_none_iff.mp hnew entry hentry

/-- Requests that name live scopes keep the scopes in good order. -/
theorem Sound.step {s t : Scopes V F} (hs : s.Sound) {r : Request V F} (hr : r.Live s.depth)
    (h : s.Step r t) : t.Sound := by
  cases h with
  | same => exact hs
  | child parent =>
    have hparent : parent < s.depth := hr.1
    refine ⟨⟨by rw [depth_child]; omega, fun hscope => ?_⟩, fun hscope => ?_, fun hscope => ?_⟩ <;>
      rw [get?_child] at hscope <;> split at hscope
    · obtain rfl := Option.some.inj hscope
      exact .inr ⟨parent, rfl, by omega⟩
    · exact hs.ordered.nested hscope
    · obtain rfl := Option.some.inj hscope
      exact .nil
    · exact hs.names hscope
    · obtain rfl := Option.some.inj hscope
      exact .nil
    · exact hs.keys hscope
  | @addVariable id name value position hnew =>
    refine hs.modify fun {scope} hscope => ⟨rfl, ?_, ?_⟩
    · rw [variableIn?_eq, bindings_eq hscope] at hnew
      rw [Scope.bindings_addVariable]
      exact nodup_concat_of_lookup (hs.names hscope) hnew value
    · rw [Scope.functions_addVariable]
      exact hs.keys hscope
  | @addFunction id name arity f position hnew =>
    refine hs.modify fun {scope} hscope => ⟨rfl, ?_, ?_⟩
    · rw [Scope.bindings_addFunction]
      exact hs.names hscope
    · rw [functionIn?_eq hscope] at hnew
      rw [Scope.functions_addFunction]
      exact nodup_concat_of_lookup (hs.keys hscope) hnew f
  | overwrite =>
    refine hs.modify fun {scope} hscope => ⟨rfl, ?_, ?_⟩
    · rw [Scope.bindings_setVariable, Scope.map_fst_rebind]
      exact hs.names hscope
    · rw [Scope.functions_setVariable]
      exact hs.keys hscope
  | release id =>
    have hid : 0 < id := Nat.pos_of_ne_zero (hr.2 id rfl)
    have hold : ∀ {i : Nat} {scope : Scope V F}, (s.release id).get? i = some scope →
        s.get? i = some scope := by
      intro i scope hscope
      rw [get?_release hid] at hscope
      split at hscope
      · exact hscope
      · cases hscope
    refine ⟨⟨?_, fun hscope => hs.ordered.nested (hold hscope)⟩,
      fun hscope => hs.names (hold hscope), fun hscope => hs.keys (hold hscope)⟩
    obtain ⟨scope, hscope⟩ := get?_eq_some_of_lt hs.ordered.live
    have hroot : (s.release id).get? 0 = some scope := by rw [get?_release hid, if_pos hid, hscope]
    exact lt_of_get?_eq_some hroot

/-! ## The answers -/

/-- The replies to a sequence of requests begin with the reply to its first. -/
theorem respond_cons {S : Type} (perform : S → Request V F → Reply V F × S) (s : S)
    (r : Request V F) (requests : List (Request V F)) :
    respond perform s (r :: requests) =
      ((perform s r).1 :: (respond perform (perform s r).2 requests).1,
        (respond perform (perform s r).2 requests).2) :=
  rfl

theorem has_levels {A : Type} (s : Scopes V F) (find : Level V F → Option A) (id : Nat) :
    s.levels.has find id = ((s.get? id).bind (find ·.level)).isSome := by
  rw [Levels.has, getElem?_levels]
  cases s.get? id <;> rfl

/-- Where something is found first along some scopes. -/
theorem map_fst_findSome? {A : Type} (g : Nat → Option A) (ids : List Nat) :
    (ids.findSome? fun i => (g i).map (i, ·)).map Prod.fst = ids.find? fun i => (g i).isSome := by
  induction ids with
  | nil => rfl
  | cons i ids ih =>
    rw [List.findSome?_cons, List.find?_cons]
    cases g i with
    | none => exact ih
    | some a => rfl

/-- What is found first along some scopes. -/
theorem map_snd_findSome? {A : Type} (g : Nat → Option A) (ids : List Nat) :
    (ids.findSome? fun i => (g i).map (i, ·)).map Prod.snd = ids.findSome? g := by
  induction ids with
  | nil => rfl
  | cons i ids ih =>
    rw [List.findSome?_cons, List.findSome?_cons]
    cases g i with
    | none => exact ih
    | some a => rfl

theorem bind_level_bindings (s : Scopes V F) (name : String) :
    (fun i => (s.get? i).bind (·.level.bindings.lookup name)) = s.variableIn? name := by
  funext i
  rw [variableIn?]
  cases s.get? i with
  | none => rfl
  | some scope => exact (scope.get?_variableTable name).symm

theorem bind_level_functions (s : Scopes V F) (name : String) (arity : Nat) :
    (fun i => (s.get? i).bind (·.level.functions.lookup (name, arity))) =
      s.functionIn? name arity := by
  funext i
  rw [functionIn?]
  cases s.get? i with
  | none => rfl
  | some scope => exact (scope.get?_functionTable (name, arity)).symm

section Nearest

variable {s : Scopes V F} {id : Nat}

theorem Ordered.home?_eq (hs : s.Ordered) (hid : id < s.depth) (name : String) :
    s.home? id name = (s.levels.nearest? (·.bindings.lookup name) id).map Prod.fst := by
  rw [hs.nearest?_levels _ hid, map_fst_findSome? fun i => (s.get? i).bind _,
    home?, ← bind_level_bindings]

theorem Ordered.nearestVariable?_eq (hs : s.Ordered) (hid : id < s.depth) (name : String) :
    s.nearestVariable? id name = (s.levels.nearest? (·.bindings.lookup name) id).map Prod.snd := by
  rw [hs.nearest?_levels _ hid, map_snd_findSome? fun i => (s.get? i).bind _,
    nearestVariable?, ← bind_level_bindings]

theorem Ordered.nearestFunction?_eq (hs : s.Ordered) (hid : id < s.depth) (name : String)
    (arity : Nat) : s.nearestFunction? id name arity =
      (s.levels.nearest? (·.functions.lookup (name, arity)) id).map Prod.snd := by
  rw [hs.nearest?_levels _ hid, map_snd_findSome? fun i => (s.get? i).bind _,
    nearestFunction?, ← bind_level_functions]

end Nearest

/-- One request is answered as in the plain account, and what there is after it agrees with that
account again. -/
theorem Sound.perform {s : Scopes V F} (hs : s.Sound) {r : Request V F} (hr : r.Live s.depth) :
    s.levels.perform r = ((s.perform r).1, (s.perform r).2.levels) := by
  cases r with
  | child parent =>
    have hfresh : s.levels.levels.length = s.fresh := by simp [levels, fresh]
    have hlevels : (s.child parent).levels = ⟨s.levels.levels ++ [⟨some parent, [], []⟩]⟩ := by
      simp [levels, child, Scope.level, Scope.empty, Scope.bindings, Scope.functions]
    rw [Levels.perform, hfresh, Scopes.perform, hlevels]
  | defineVariable id name value position =>
    have hhas := s.has_levels (·.bindings.lookup name) id
    rw [congrFun (s.bind_level_bindings name) id] at hhas
    rw [Levels.perform, Scopes.perform, defineVariable, hhas]
    cases s.variableIn? name id with
    | some v => rfl
    | none =>
      rw [if_neg (by simp)]
      refine congrArg (Prod.mk _) (s.levels_modify id fun scope _ => ?_).symm
      rw [Scope.level, Scope.level, Scope.bindings_addVariable]
      rfl
  | defineFunction id name arity f position =>
    have hhas := s.has_levels (·.functions.lookup (name, arity)) id
    rw [congrFun (s.bind_level_functions name arity) id] at hhas
    rw [Levels.perform, Scopes.perform, defineFunction, hhas]
    cases s.functionIn? name arity id with
    | some v => rfl
    | none =>
      rw [if_neg (by simp)]
      refine congrArg (Prod.mk _) (s.levels_modify id fun scope _ => ?_).symm
      rw [Scope.level, Scope.level, Scope.functions_addFunction]
      rfl
  | lookupVariable id name position =>
    have hid : id < s.depth := hr.1
    rw [Levels.perform, Scopes.perform, lookupVariable, hs.ordered.nearestVariable?_eq hid]
    rcases s.levels.nearest? (·.bindings.lookup name) id with _ | ⟨home, value⟩ <;> rfl
  | assign id name value position =>
    have hid : id < s.depth := hr.1
    rw [Levels.perform, Scopes.perform, assign, hs.ordered.home?_eq hid]
    rcases s.levels.nearest? (·.bindings.lookup name) id with _ | ⟨home, old⟩
    · rfl
    · refine congrArg (Prod.mk _) (s.levels_modify home fun scope hscope => ?_).symm
      rw [Scope.level, Scope.level, Scope.bindings_setVariable,
        Scope.rebind_eq_map value (hs.names hscope)]
      rfl
  | lookupFunction id name arity position =>
    have hid : id < s.depth := hr.1
    rw [Levels.perform, Scopes.perform, lookupFunction, hs.ordered.nearestFunction?_eq hid]
    rcases s.levels.nearest? (·.functions.lookup (name, arity)) id with _ | ⟨home, f⟩ <;> rfl
  | bindings id =>
    rw [Levels.perform, Scopes.perform, bindings, getElem?_levels]
    cases s.get? id <;> rfl
  | release id =>
    have hid : max id 1 = id := Nat.max_eq_left (Nat.pos_of_ne_zero (hr.2 id rfl))
    rw [Levels.perform, Scopes.perform, release, hid, levels, levels, ← List.map_take]
    simp

/-! ## The way outward -/

/-- The way outward from a scope: it ends at a scope that is nested in none. -/
inductive Walk (s : Scopes V F) : Nat → List Nat → Prop
  /-- the end of the way -/
  | last {id scope} : s.get? id = some scope → scope.parent = none → s.Walk id [id]
  /-- the way goes on from the scope around -/
  | outward {id scope parent ids} : s.get? id = some scope → scope.parent = some parent →
    s.Walk parent ids → s.Walk id (id :: ids)

/-- The scopes that are searched for a name are those on the way outward. -/
theorem Ordered.walk {s : Scopes V F} (hs : s.Ordered) :
    ∀ {id : Nat}, id < s.depth → s.Walk id (s.chain id) := by
  intro id
  induction id using Nat.strongRecOn with
  | ind id ih =>
    intro hid
    obtain ⟨scope, hscope⟩ := get?_eq_some_of_lt hid
    rw [hs.chain_eq hscope]
    rcases hs.nested hscope with ⟨hp, -⟩ | ⟨p, hp, hlt⟩
    · rw [hp]
      exact .last hscope hp
    · rw [hp]
      exact .outward hscope hp (ih p hlt (by omega))

/-! ## Another value -/

/-- One variable of one scope has another value, and that is all that is different. -/
structure Overwritten (s t : Scopes V F) (home : Nat) (name : String) (value : V) : Prop where
  /-- there are as many scopes -/
  depth : t.depth = s.depth
  /-- the other scopes are the same -/
  others : ∀ id, id ≠ home → t.get? id = s.get? id
  /-- in its scope the variable stands where it stood, among what stood there -/
  home : ∃ scope before old after, s.get? home = some scope ∧
    scope.bindings = before ++ (name, old) :: after ∧ t.get? home =
      some (.ofLists scope.parent (before ++ (name, value) :: after) scope.functions)

theorem overwritten_of_isSome {s : Scopes V F} {home : Nat} {name : String} (value : V)
    (h : (s.variableIn? name home).isSome) :
    s.Overwritten (s.overwrite home name value) home name value := by
  obtain ⟨old, hold⟩ := Option.isSome_iff_exists.mp h
  obtain ⟨scope, hscope, hlookup⟩ := Option.bind_eq_some_iff.mp hold
  rw [scope.get?_variableTable] at hlookup
  obtain ⟨before, old, after, hbindings, hrebind⟩ :=
    Scope.exists_rebind value (Option.isSome_of_eq_some hlookup)
  refine ⟨depth_modify .., fun id hid => ?_, scope, before, old, after, hscope, hbindings, ?_⟩
  · rw [overwrite, get?_modify, if_neg (Ne.symm hid)]
  · rw [overwrite, get?_modify, if_pos rfl, hscope]
    exact congrArg some (Scope.ext_lists rfl (by simp [hrebind]) rfl)

/-- Another value for a name goes to the nearest variable on the way outward. It is refused if there
is none. -/
theorem assign_nearest (s : Scopes V F) (id : Nat) (name : String) (value : V)
    (position : Position) :
    (∃ before home after t, s.chain id = before ++ home :: after ∧
      (∀ i ∈ before, s.variableIn? name i = none) ∧ s.Overwritten t home name value ∧
        s.assign id name value position = .ok t) ∨
    (∀ i ∈ s.chain id, s.variableIn? name i = none) ∧
      s.assign id name value position = .error ⟨.undefinedName name, position⟩ := by
  rw [assign]
  cases hhome : s.home? id name with
  | none =>
    refine .inr ⟨fun i hi => ?_, rfl⟩
    simpa using List.find?_eq_none.mp hhome i hi
  | some home =>
    obtain ⟨hhas, before, after, hchain, hbefore⟩ := List.find?_eq_some_iff_append.mp hhome
    exact .inl ⟨before, home, after, s.overwrite home name value, hchain,
      fun i hi => by simpa using hbefore i hi, overwritten_of_isSome value hhas, rfl⟩

/-! ## What a released scope leaves -/

/-- Gives variables other values, one after the other. -/
def overwriteAll (s : Scopes V F) (values : List (Nat × String × V)) : Scopes V F :=
  values.foldl (fun s v => s.overwrite v.1 v.2.1 v.2.2) s

/-- Once the scope `c` is released there will be `left`, or it has been released. -/
def Leaves (s : Scopes V F) (c : Nat) (left : Scopes V F) : Prop :=
  s.depth ≤ c ∨ s.release c = left

section Leaves

variable {s t left : Scopes V F} {c : Nat}

/-- What is done in a scope that is released later is not left. -/
theorem release_modify (hc : 0 < c) {home : Nat} (h : c ≤ home) (change : Scope V F → Scope V F) :
    (⟨s.scopes.modify home change⟩ : Scopes V F).release c = s.release c := by
  apply ext_get?
  intro id
  rw [get?_release hc, get?_release hc, get?_modify]
  split
  · rw [if_neg (by omega)]
  · rfl

/-- A value may as well be overwritten after the release. -/
theorem release_overwrite (hc : 0 < c) (home : Nat) (name : String) (value : V) :
    (s.overwrite home name value).release c = (s.release c).overwrite home name value := by
  apply ext_get?
  intro id
  rw [overwrite, overwrite, get?_release hc, get?_modify, get?_modify, get?_release hc]
  split
  · rfl
  · simp

theorem release_child (hc : 0 < c) (h : c ≤ s.depth) (parent : Nat) :
    (s.child parent).release c = s.release c := by
  apply ext_get?
  intro id
  rw [get?_release hc, get?_release hc, get?_child]
  split
  · rw [if_neg (by omega)]
  · rfl

theorem release_release (hc : 0 < c) {id : Nat} (h : c < id) :
    (s.release id).release c = s.release c := by
  apply ext_get?
  intro i
  rw [get?_release hc, get?_release hc, get?_release (by omega)]
  split
  · rw [if_pos (by omega)]
  · rfl

theorem depth_release (hc : 0 < c) : (s.release c).depth = min c s.depth := by
  have hmax : max c 1 = c := Nat.max_eq_left hc
  rw [release, depth, depth, hmax, Array.size_shrink]

theorem Leaves.modify (h : s.Leaves c left) (hc : 0 < c) {home : Nat} (hhome : c ≤ home)
    (change : Scope V F → Scope V F) : (⟨s.scopes.modify home change⟩ : Scopes V F).Leaves c left :=
  h.imp (Nat.le_trans (Nat.le_of_eq (depth_modify ..))) (release_modify hc hhome change).trans

/-- A request that defines and creates only in a scope and newer ones does nothing to what the scope
leaves but to overwrite values. -/
theorem Leaves.step (hc : 0 < c) {r : Request V F} (hr : r.Live s.depth) (hin : r.Inside c)
    (hstep : s.Step r t) (h : s.Leaves c left) :
    t.Leaves c (left.overwriteAll ((s.overwrites r).filter (·.1 < c))) := by
  cases hstep with
  | same hnone =>
    rw [hnone]
    exact h
  | child parent =>
    have hparent : parent < s.depth := hr.1
    have hinside : c ≤ parent := hin
    refine h.elim (fun hdepth => by omega) fun hleft => .inr ?_
    rw [release_child hc (by omega)]
    exact hleft
  | addVariable => exact h.modify hc hin _
  | addFunction => exact h.modify hc hin _
  | @overwrite id name value position home hhome =>
    have hvalues : s.overwrites (.assign id name value position : Request V F) =
        [(home, name, value)] := by
      rw [overwrites, hhome]
      rfl
    rw [hvalues]
    rcases Nat.lt_or_ge home c with hlt | hge
    · rw [List.filter_cons_of_pos (by simpa using hlt)]
      refine h.imp (Nat.le_trans (Nat.le_of_eq (depth_modify ..))) fun hleft => ?_
      rw [release_overwrite hc, hleft]
      rfl
    · rw [List.filter_cons_of_neg (by simpa using hge)]
      exact h.modify hc hge _
  | release id =>
    have hid : 0 < id := Nat.pos_of_ne_zero (hr.2 id rfl)
    rcases Nat.lt_or_ge c id with hlt | hge
    · refine h.imp (fun hdepth => ?_) fun hleft => ?_
      · rw [depth_release hid]
        omega
      · rw [release_release hc hlt]
        exact hleft
    · left
      rw [depth_release hid]
      omega

/-- The same of a sequence of requests. -/
theorem Leaves.respond (hc : 0 < c) {requests : List (Request V F)} (hlive : s.Admits requests)
    (hin : ∀ r ∈ requests, r.Inside c) (h : s.Leaves c left) :
    (respond perform s requests).2.Leaves c
      (left.overwriteAll ((s.overwritten requests).filter (·.1 < c))) := by
  induction requests generalizing s left with
  | nil => exact h
  | cons r requests ih =>
    obtain ⟨hr, hrest⟩ := hlive
    have hstep := Leaves.step hc hr (hin r List.mem_cons_self) (s.step_perform r) h
    have hall := ih hrest (fun r hr => hin r (List.mem_cons_of_mem _ hr)) hstep
    rw [respond_cons, overwritten, List.filter_append, overwriteAll, List.foldl_append]
    exact hall

end Leaves

/-! ## Sequences of requests -/

theorem admits_append {s : Scopes V F} {first second : List (Request V F)} :
    s.Admits (first ++ second) ↔
      s.Admits first ∧ (respond perform s first).2.Admits second := by
  induction first generalizing s with
  | nil => simp [Admits, respond]
  | cons r first ih =>
    rw [List.cons_append, Admits, Admits, ih, and_assoc]
    rfl

theorem Sound.respond {s : Scopes V F} (hs : s.Sound) {requests : List (Request V F)}
    (h : s.Admits requests) : (respond Scopes.perform s requests).2.Sound ∧
      respond Levels.perform s.levels requests = ((respond Scopes.perform s requests).1,
        (respond Scopes.perform s requests).2.levels) := by
  induction requests generalizing s with
  | nil => exact ⟨hs, rfl⟩
  | cons r requests ih =>
    obtain ⟨hsound, hlevels⟩ := ih (hs.step h.1 (s.step_perform r)) h.2
    refine ⟨hsound, ?_⟩
    rw [respond_cons, hs.perform h.1, hlevels, respond_cons]

/-- **Scopes are what their plain account says.** After any requests that name live scopes and never
release the root, every reply was that of the plain account, and the account of the scopes is the
one that was kept. Every scope is nested in an older one, so that the way outward ends, and is what
is searched. The indices have exactly the entries, and no key twice. Another value goes to the
nearest variable and changes nothing else, and what fails changes nothing. And a new scope in which,
with the newer ones, all further definitions are made leaves nothing when it is released but the
values that were overwritten in the surviving scopes. -/
theorem respond_refines_levels {requests : List (Request V F)} {replies : List (Reply V F)}
    {s : Scopes V F} (hlive : initial.Admits requests)
    (hs : respond perform initial requests = (replies, s)) :
    respond Levels.perform .initial requests = (replies, s.levels) ∧
    s.Ordered ∧
    (∀ id, id < s.depth → s.Walk id (s.chain id)) ∧
    (∀ id scope, s.get? id = some scope → scope.variableTable.Exact ∧ scope.functionTable.Exact) ∧
    (∀ id name value position, id < s.depth →
      (∃ before home after t, s.chain id = before ++ home :: after ∧
        (∀ i ∈ before, s.variableIn? name i = none) ∧ s.Overwritten t home name value ∧
          s.assign id name value position = .ok t) ∨
      (∀ i ∈ s.chain id, s.variableIn? name i = none) ∧
        s.assign id name value position = .error ⟨.undefinedName name, position⟩) ∧
    (∀ r d, (s.perform r).1 = .fault d → (s.perform r).2 = s) ∧
    (∀ parent inner, parent < s.depth → (∀ r ∈ inner, r.Inside s.fresh) →
      (s.child parent).Admits (inner ++ [.release s.fresh]) →
        (respond perform (s.child parent) inner).2.release s.fresh =
          s.overwriteAll (((s.child parent).overwritten inner).filter (·.1 < s.fresh))) := by
  obtain ⟨hsound, hlevels⟩ := (sound_initial (V := V) (F := F)).respond hlive
  rw [hs] at hsound hlevels
  refine ⟨hlevels, hsound.ordered, fun id hid => hsound.ordered.walk hid, fun id scope hscope => ?_,
    fun id name value position _ => s.assign_nearest id name value position,
    fun r d hd => perform_eq_of_fault hd, fun parent inner hparent hin hinner => ?_⟩
  · exact ⟨Table.exact_of_nodup (hsound.names hscope), Table.exact_of_nodup (hsound.keys hscope)⟩
  · obtain ⟨hinner, hlast, -⟩ := admits_append.mp hinner
    have hbegin : (s.child parent).Leaves s.fresh s := by
      right
      have hrelease := release_extend_child hsound.ordered.live parent []
      rwa [extend_nil] at hrelease
    have hend := Leaves.respond hsound.ordered.live hinner hin hbegin
    -- the scope is live when it is released, so it was not released before
    exact hend.resolve_left (Nat.not_le.mpr hlast.1)

/-- A variable of an inner scope is gone with it, the value that it gave to one outside stays. -/
theorem inner_scope_refines_levels : let requests : List (Request Nat Unit) :=
      [.defineVariable 0 "x" 1 default, .child 0, .defineVariable 1 "y" 2 default,
        .assign 1 "x" 3 default, .release 1, .lookupVariable 0 "x" default,
        .lookupVariable 0 "y" default]
    let s := (respond perform initial requests).2
    initial.Admits requests ∧ respond Levels.perform .initial requests =
      ([.done, .scope 1, .done, .done, .done, .value 3, .fault ⟨.undefinedName "y", default⟩],
        s.levels) := by
  intro requests s
  have hlive : initial.Admits requests :=
    ⟨⟨by decide, nofun⟩, ⟨by decide, nofun⟩, ⟨by decide, nofun⟩, ⟨by decide, nofun⟩,
      ⟨by decide, fun id h => by cases h; decide⟩, ⟨by decide, nofun⟩, ⟨by decide, nofun⟩, trivial⟩
  exact ⟨hlive, (respond_refines_levels hlive rfl).1⟩

end Scopes

end TeachLang
