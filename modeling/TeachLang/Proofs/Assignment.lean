import TeachLang.Proofs.Arena
import TeachLang.Proofs.Related
import TeachLang.Run.Stmt

/-!
# Assignment

A place is read by evaluating the expression that designates it, and written by going down from its
variable. Both ways come to the same part: `Place.resolve` finds along the second what evaluation
finds along the first, and fails as it does.

Writing replaces that part and nothing else. `Value.Rewritten` says so of the value of a variable,
where every record on the way keeps its tag, its methods and its fields but for one, and
`Machine.Rewritten` of a whole machine, where all other variables of all scopes are as they were.
An assignment to a place either writes so, once its value is found, or leaves the machine where the
value was found; and a field of what is no place is given a value that nobody can see.
-/

namespace TeachLang

/-! ## Lists of bindings -/

theorem lookup_middle {V : Type} {n : String} {before : List (String × V)} (v : V)
    (behind : List (String × V)) (h : n ∉ before.map Prod.fst) :
    (before ++ (n, v) :: behind).lookup n = some v := by
  refine List.lookup_eq_some_iff.mpr ⟨before, behind, rfl, ?_⟩
  intro binding hbinding
  simp only [bne_iff_ne, ne_eq]
  rintro rfl
  exact h (List.mem_map_of_mem hbinding)

theorem exists_middle {V : Type} {n : String} {v : V} {bindings : List (String × V)}
    (h : bindings.lookup n = some v) :
    ∃ before behind, bindings = before ++ (n, v) :: behind ∧ n ∉ before.map Prod.fst := by
  obtain ⟨before, behind, hbindings, hbefore⟩ := List.lookup_eq_some_iff.mp h
  refine ⟨before, behind, hbindings, ?_⟩
  intro hmem
  obtain ⟨binding, hbinding, rfl⟩ := List.mem_map.mp hmem
  simpa using hbefore binding hbinding

theorem Scope.rebind_middle {V : Type} {n : String} {before : List (String × V)} (old new : V)
    (behind : List (String × V)) (h : n ∉ before.map Prod.fst) :
    rebind n new (before ++ (n, old) :: behind) = before ++ (n, new) :: behind := by
  induction before with
  | nil => simp [rebind]
  | cons binding before ih =>
    obtain ⟨x, v⟩ := binding
    simp only [List.map_cons, List.mem_cons, not_or] at h
    rw [List.cons_append, rebind, if_neg (Ne.symm h.1), ih h.2, List.cons_append]

/-- In fields no name is there twice. -/
theorem Fields.not_mem_before {V : Type} {bound : Option String} {fields : Fields V bound}
    {n : String} {v : V} {before behind : List (String × V)}
    (h : fields.toList = before ++ (n, v) :: behind) : n ∉ before.map Prod.fst := by
  intro hmem
  obtain ⟨field, hfield, hname⟩ := List.mem_map.mp hmem
  have hlt := (List.pairwise_append.mp (h ▸ fields.ascending)).2.2 field hfield (n, v)
    List.mem_cons_self
  rw [hname] at hlt
  exact String.lt_irrefl n hlt

theorem Fields.lookup_of_toList {V : Type} {bound : Option String} {fields : Fields V bound}
    {n : String} {v : V} {before behind : List (String × V)}
    (h : fields.toList = before ++ (n, v) :: behind) : fields.lookup n = some v := by
  rw [lookup, h]
  exact lookup_middle v behind (not_mem_before h)

/-! ## Parts of values -/

namespace Value

/-- The names of the fields on a path. -/
def Path.names (path : Path) : List String := path.map Prod.fst

/-- The second value is the first with `new` in place of `old` at the end of a path of fields. -/
inductive Rewritten (old new : Value) : List String → Value → Value → Prop where
  /-- the part is the whole -/
  | whole : Rewritten old new [] old new
  /-- the part is in a field; all else in the record is the same -/
  | field {ty : Ty} {n : String} {fields fields' : Fields Value none}
    {before behind : List (String × Value)} {methods : List ((String × Nat) × Nat)}
    {path : List String} {part changed : Value} :
    fields.toList = before ++ (n, part) :: behind →
    fields'.toList = before ++ (n, changed) :: behind → Rewritten old new path part changed →
    Rewritten old new (n :: path) (.record ty fields methods) (.record ty fields' methods)

variable {value part old new : Value} {n : String} {position : Position} {path : Path}
  {f : Value → Except Diagnostic Value} {d : Diagnostic}

theorem field_eq_ok : value.field n position = .ok part ↔ value.field? n = some part := by
  rw [field]
  cases value.field? n <;> simp

/-- Only records have fields, and another value for a field goes where the field is. -/
theorem exists_record (h : value.field? n = some part) :
    ∃ ty fields methods before behind, value = .record ty fields methods ∧
      fields.toList = before ++ (n, part) :: behind ∧
      ∀ new, value.withField n new = .record ty (fields.set n new) methods ∧
        (fields.set n new).toList = before ++ (n, new) :: behind := by
  cases value with
  | atom | iterable => cases h
  | record ty fields methods =>
    obtain ⟨before, behind, hfields, hbefore⟩ := exists_middle h
    refine ⟨ty, fields, methods, before, behind, rfl, hfields, fun new => ⟨rfl, ?_⟩⟩
    rw [Fields.toList_set, hfields, Scope.rebind_middle _ _ _ hbefore]

theorem follow_cons : follow ((n, position) :: path) value =
    (value.field n position).bind (follow path) := rfl

theorem change_cons : change f ((n, position) :: path) value =
    (value.field n position).bind fun part =>
      (change f path part).bind fun changed => .ok (value.withField n changed) := rfl

/-- Giving a field a value is changing the part behind one more step. -/
theorem change_setField (new : Value) (n : String) (position : Position) (path : Path)
    (value : Value) : change (·.setField n new position) path value =
      change (fun _ => .ok new) (path ++ [(n, position)]) value := by
  induction path generalizing value with
  | nil =>
    simp only [List.nil_append, change, setField, field]
    cases value.field? n <;> rfl
  | cons step path ih =>
    obtain ⟨x, p⟩ := step
    simp only [List.cons_append, change_cons, ih]

theorem follow_concat (n : String) (position : Position) (path : Path) (value : Value) :
    follow (path ++ [(n, position)]) value = (follow path value).bind (·.field n position) := by
  induction path generalizing value with
  | nil =>
    rw [List.nil_append, follow_cons]
    change _ = value.field n position
    cases value.field n position <;> rfl
  | cons step path ih =>
    obtain ⟨x, p⟩ := step
    rw [List.cons_append, follow_cons, follow_cons]
    cases value.field x p with
    | error d => rfl
    | ok part => exact ih part

/-- Where there is no part, or one that cannot be changed, nothing is changed. -/
theorem change_of_error (h : (follow path value).bind f = .error d) :
    change f path value = .error d := by
  induction path generalizing value with
  | nil => exact h
  | cons step path ih =>
    obtain ⟨n, position⟩ := step
    rw [follow_cons] at h
    rw [change_cons]
    cases hpart : value.field n position with
    | error d' =>
      rw [hpart] at h
      exact h
    | ok part =>
      rw [hpart] at h
      change (change f path part).bind _ = _
      rw [ih h]
      rfl

/-- Changing a part changes nothing else. -/
theorem change_rewrites (h : follow path value = .ok old) (hf : f old = .ok new) :
    ∃ changed, change f path value = .ok changed ∧ Rewritten old new path.names value changed := by
  induction path generalizing value with
  | nil =>
    obtain rfl := Except.ok.inj h
    exact ⟨new, hf, .whole⟩
  | cons step path ih =>
    obtain ⟨n, position⟩ := step
    rw [follow_cons] at h
    cases hpart : value.field n position with
    | error d' =>
      rw [hpart] at h
      cases h
    | ok part =>
      rw [hpart] at h
      obtain ⟨changed, hchange, hrewritten⟩ := ih h
      obtain ⟨ty, fields, methods, before, behind, rfl, hfields, hwith⟩ :=
        exists_record (field_eq_ok.mp hpart)
      obtain ⟨hrecord, hchanged⟩ := hwith changed
      refine ⟨_, ?_, .field hfields hchanged hrewritten⟩
      rw [change_cons, hpart]
      change (change f path part).bind _ = _
      rw [hchange, ← hrecord]
      rfl

/-- What was put at the end of a path is found there. -/
theorem Rewritten.follow {whole changed : Value}
    (h : Rewritten old new path.names whole changed) : Value.follow path changed = .ok new := by
  induction path generalizing whole changed with
  | nil =>
    cases h
    rfl
  | cons step path ih =>
    obtain ⟨n, position⟩ := step
    change Rewritten old new (n :: Path.names path) whole changed at h
    cases h with
    | @field ty _ fields fields' _ _ methods _ part changed _ hchanged hpart =>
      have hfield : (record ty fields' methods).field? n = some changed :=
        Fields.lookup_of_toList hchanged
      rw [Value.follow, field_eq_ok.mpr hfield]
      exact ih hpart

end Value

/-! ## Variables -/

/-- The second scope is the first with `new` in place of `old` in the variable that the name means
there. -/
inductive Scope.Reassigned {V F : Type} (name : String) (old new : V) :
    Scope V F → Scope V F → Prop where
  /-- the first variable of the name is another one, all else is the same -/
  | intro {parent : Option Nat} {before behind : List (String × V)}
    {functions : List ((String × Nat) × F)} :
    name ∉ before.map Prod.fst →
    Reassigned name old new (.ofLists parent (before ++ (name, old) :: behind) functions)
      (.ofLists parent (before ++ (name, new) :: behind) functions)

namespace Scopes

variable {V F : Type} {s t : Scopes V F} {home id : Nat} {name : String} {old new : V}

/-- The second scopes are the first with `new` in place of `old` in one variable of one scope. -/
structure Reassigned (home : Nat) (name : String) (old new : V) (s t : Scopes V F) : Prop where
  /-- the scope with the variable -/
  changed : ∃ a b, s.get? home = some a ∧ t.get? home = some b ∧ Scope.Reassigned name old new a b
  /-- all other scopes are the same -/
  others : ∀ id, id ≠ home → t.get? id = s.get? id

/-- What an assignment does if there is a variable of the name. -/
theorem assign_reassigns (h : s.nearestVariable? id name = some old) (new : V)
    (position : Position) : ∃ home t, s.home? id name = some home ∧
      s.assign id name new position = .ok t ∧ Reassigned home name old new s t := by
  rw [nearestVariable?_eq_home?] at h
  obtain ⟨home, hhome, hin⟩ := Option.bind_eq_some_iff.mp h
  obtain ⟨a, ha, hget⟩ := Option.bind_eq_some_iff.mp hin
  rw [Scope.get?_variableTable] at hget
  obtain ⟨before, behind, hbindings, hbefore⟩ := exists_middle hget
  refine ⟨home, _, hhome, by rw [Scopes.assign, hhome], ?_, ?_⟩
  · refine ⟨a, a.setVariable name new, ha, by rw [get?_modify, if_pos rfl, ha]; rfl, ?_⟩
    have hold : a = .ofLists a.parent (before ++ (name, old) :: behind) a.functions :=
      Scope.ext_lists rfl hbindings rfl
    have hnew : a.setVariable name new =
        .ofLists a.parent (before ++ (name, new) :: behind) a.functions := by
      refine Scope.ext_lists rfl ?_ rfl
      rw [Scope.bindings_setVariable, hbindings, Scope.rebind_middle _ _ _ hbefore]
      rfl
    rw [hnew]
    nth_rewrite 1 [hold]
    exact .intro hbefore
  · intro other hother
    rw [get?_modify, if_neg (Ne.symm hother)]

theorem home?_eq_none (h : s.nearestVariable? id name = none) : s.home? id name = none := by
  rw [Scopes.nearestVariable?, List.findSome?_eq_none_iff] at h
  rw [home?, List.find?_eq_none]
  intro i hi
  simp [h i hi]

/-- Another value for a variable does not change what names mean. -/
theorem Reassigned.home?_eq (h : Reassigned home name old new s t) (id : Nat) (n : String) :
    s.home? id n = t.home? id n := by
  have hsame : ∀ bindings : List (String × V),
      List.Forall₂ (Bound fun _ _ => True) bindings bindings := by
    intro bindings
    exact List.forall₂_same.mpr fun _ _ => ⟨rfl, trivial⟩
  refine Related.home?_eq (R := fun _ _ => True) (fun other => ?_) id n
  by_cases hother : other = home
  · obtain ⟨a, b, ha, hb, hab⟩ := h.changed
    rw [hother, ha, hb]
    cases hab with
    | intro hbefore =>
      refine .some ⟨rfl, rfl, List.rel_append (hsame _) ?_⟩
      exact .cons ⟨rfl, trivial⟩ (hsame _)
  · rw [h.others other hother]
    cases s.get? other with
    | none => exact .none
    | some a => exact .some ⟨rfl, rfl, hsame _⟩

/-- The variable has the new value. -/
theorem Reassigned.nearestVariable? (h : Reassigned home name old new s t)
    (hhome : s.home? id name = some home) : t.nearestVariable? id name = some new := by
  obtain ⟨a, b, -, hb, hab⟩ := h.changed
  rw [nearestVariable?_eq_home?, ← h.home?_eq, hhome]
  change t.variableIn? name home = some new
  rw [variableIn?, hb]
  cases hab with
  | intro hbefore => exact (Scope.get?_variableTable _ _).trans (lookup_middle _ _ hbefore)

end Scopes

/-! ## Runs -/

namespace Run

variable {α β : Type} {first : Run α} {next : α → Run β} {f : Machine → Except Diagnostic α}
  {m mid : Machine} {found : α} {d : Diagnostic}

theorem bind_of_done (h : first m = .done found mid) : (first >>= next) m = next found mid := by
  change Run.bind first next m = _
  rw [Run.bind, h]

theorem bind_of_failed (h : first m = .failed d mid) : (first >>= next) m = .failed d mid := by
  change Run.bind first next m = _
  rw [Run.bind, h]

theorem bind_of_exhausted (h : first m = .exhausted) : (first >>= next) m = .exhausted := by
  change Run.bind first next m = _
  rw [Run.bind, h]

theorem look_of_ok (h : f m = .ok found) : look f m = .done found m := by
  rw [look, h]
  rfl

theorem look_of_error (h : f m = .error d) : look f m = .failed d m := by
  rw [look, h]
  rfl

theorem change_of_ok {f : Machine → Except Diagnostic Machine} (h : f m = .ok mid) :
    change f m = .done () mid := by
  rw [change, h]

theorem change_of_error {f : Machine → Except Diagnostic Machine} (h : f m = .error d) :
    change f m = .failed d m := by
  rw [change, h]

end Run

/-! ## Places -/

namespace Place

/-- The value of a place, found as it is found when it is to be changed. -/
def resolve (place : Place) (m : Machine) : Except Diagnostic Value := do
  Value.follow place.path (← m.lookupVariable place.name place.position)

end Place

/-- The second machine is the first with `new` in place of `old` in a place. -/
structure Machine.Rewritten (place : Place) (old new : Value) (m last : Machine) : Prop where
  /-- the program stands where it stood -/
  scope : last.scope = m.scope
  /-- nothing was printed -/
  printer : last.printer = m.printer
  /-- one variable has another value, and that only where the place is -/
  value : ∃ home root changed, m.scopes.home? m.scope place.name = some home ∧
    m.scopes.Reassigned home place.name root changed last.scopes ∧
      Value.Rewritten old new place.path.names root changed

theorem Machine.nearestVariable?_of_lookup {m : Machine} {name : String} {position : Position}
    {value : Value} (h : m.lookupVariable name position = .ok value) :
    m.scopes.nearestVariable? m.scope name = some value := by
  rw [lookupVariable, Scopes.lookupVariable] at h
  split at h
  · next hvalue =>
    obtain rfl := Except.ok.inj h
    exact hvalue
  · cases h

/-- An assignment to the variable of a place is a change of the place alone if the new value of the
variable differs from the old one only there. -/
theorem Machine.assign_rewrites {m : Machine} {place : Place} {old new root changed : Value}
    (hroot : m.lookupVariable place.name place.position = .ok root)
    (hchanged : Value.Rewritten old new place.path.names root changed) :
    ∃ last, m.assign place.name changed place.position = .ok last ∧
      m.Rewritten place old new last := by
  obtain ⟨home, t, hhome, hassign, ht⟩ :=
    Scopes.assign_reassigns (nearestVariable?_of_lookup hroot) changed place.position
  refine ⟨⟨t, m.scope, m.printer⟩, ?_, rfl, rfl, home, root, changed, hhome, ht, hchanged⟩
  rw [assign, changeScopes, hassign]

namespace Place

variable {place : Place} {m last : Machine} {old new : Value}

theorem field_resolve (place : Place) (n : String) (position : Position) (m : Machine) :
    (place.field n position).resolve m = (place.resolve m).bind (·.field n position) := by
  rw [resolve, resolve]
  change (m.lookupVariable place.name place.position).bind
    (Value.follow (place.path ++ [(n, position)])) = _
  cases m.lookupVariable place.name place.position with
  | error d => rfl
  | ok root => exact Value.follow_concat n position place.path root

/-- Evaluation of an expression that designates a place finds what is there. -/
theorem evaluate_eq_resolve (host : Host) (caller : Caller) : ∀ {p : Expr} {place : Place},
    p.place? = some place → p.evaluate host caller = Run.look place.resolve
  | .name n _ span, _, h => by
    obtain rfl := Option.some.inj h
    rw [Expr.evaluate]
    congr 1
    funext m
    rw [resolve]
    change _ = (m.lookupVariable n span.start).bind (Value.follow [])
    cases m.lookupVariable n span.start <;> rfl
  | .member receiver n _ span, _, h => by
    obtain ⟨place, hplace, rfl⟩ := Option.map_eq_some_iff.mp h
    rw [Expr.evaluate, evaluate_eq_resolve host caller hplace]
    funext m
    rw [Run.look, field_resolve]
    cases hfound : place.resolve m with
    | error d => rw [Run.bind_of_failed (Run.look_of_error hfound)]; rfl
    | ok value => rw [Run.bind_of_done (Run.look_of_ok hfound)]; rfl

/-- How a change of a place ends. What is there is all that matters to it. -/
inductive ChangeEnds (place : Place) (f : Value → Except Diagnostic Value) (m : Machine) :
    Outcome Unit → Prop where
  /-- the place has what it is changed to -/
  | changed {old new : Value} {last : Machine} : place.resolve m = .ok old → f old = .ok new →
    m.Rewritten place old new last → ChangeEnds place f m (.done () last)
  /-- what is there cannot be changed so -/
  | refused {old : Value} {d : Diagnostic} : place.resolve m = .ok old → f old = .error d →
    ChangeEnds place f m (.failed d m)
  /-- there is no such place -/
  | lost {d : Diagnostic} : place.resolve m = .error d → ChangeEnds place f m (.failed d m)

theorem change_ends (place : Place) (f : Value → Except Diagnostic Value) (m : Machine) :
    place.ChangeEnds f m (place.change f m) := by
  cases hroot : m.lookupVariable place.name place.position with
  | error d =>
    have hresolve : place.resolve m = .error d := by
      rw [resolve, hroot]
      rfl
    have hchange : place.change f m = .failed d m := by
      rw [change]
      refine Run.change_of_error ?_
      rw [hroot]
      rfl
    rw [hchange]
    exact .lost hresolve
  | ok root =>
    have hresolve : place.resolve m = Value.follow place.path root := by
      rw [resolve, hroot]
      rfl
    have hchange : place.change f m = Run.change (fun m =>
        (Value.change f place.path root).bind (m.assign place.name · place.position)) m := by
      rw [change, Run.change, hroot]
      rfl
    rw [hchange]
    cases hold : Value.follow place.path root with
    | error d =>
      have hnone : (Value.follow place.path root).bind f = .error d := by
        rw [hold]
        rfl
      rw [Value.change_of_error hnone, Run.change_of_error rfl]
      exact .lost (hresolve.trans hold)
    | ok old =>
      cases hnew : f old with
      | error d =>
        have hnone : (Value.follow place.path root).bind f = .error d := by
          rw [hold]
          exact hnew
        rw [Value.change_of_error hnone, Run.change_of_error rfl]
        exact .refused (hresolve.trans hold) hnew
      | ok new =>
        obtain ⟨changed, hwrite, hrewritten⟩ := Value.change_rewrites hold hnew
        obtain ⟨last, hassign, hlast⟩ := Machine.assign_rewrites hroot hrewritten
        have hdone : Run.change (fun m =>
            (Except.ok changed).bind (m.assign place.name · place.position)) m = .done () last :=
          Run.change_of_ok hassign
        rw [hwrite, hdone]
        exact .changed (hresolve.trans hold) hnew hlast

/-- A place has the value to which it was changed. -/
theorem resolve_of_rewritten (h : m.Rewritten place old new last) :
    place.resolve last = .ok new := by
  obtain ⟨home, root, changed, hhome, hscopes, hchanged⟩ := h.value
  have hfound : last.lookupVariable place.name place.position = .ok changed := by
    rw [Machine.lookupVariable, Scopes.lookupVariable, h.scope, hscopes.nearestVariable? hhome]
  rw [resolve, hfound]
  exact hchanged.follow

end Place

/-! ## Assignments -/

/-- Where no variable has the name an assignment to it fails as a search for it does. -/
theorem Machine.assign_eq (m : Machine) (name : String) (value : Value) (position : Position) :
    m.assign name value position =
      (m.lookupVariable name position).bind fun _ => m.assign name value position := by
  cases hroot : m.lookupVariable name position with
  | ok root => rfl
  | error d =>
    rw [lookupVariable, Scopes.lookupVariable] at hroot
    split at hroot
    · cases hroot
    · next hnone =>
      obtain rfl := Except.error.inj hroot
      rw [assign, changeScopes, Scopes.assign, Scopes.home?_eq_none hnone]
      rfl

/-- The machine that a run leaves behind. -/
def Outcome.last? {α : Type} : Outcome α → Option Machine
  | .done _ last | .failed _ last => some last
  | .exhausted => none

/-- How an assignment to an expression that designates a place ends. -/
inductive Stmt.AssignmentEnds (host : Host) (caller : Caller) (place : Place) (p e : Expr)
    (m : Machine) : Outcome Flow → Prop where
  /-- the value is in the place, where the expression finds it; nothing else has changed since the
  value was found -/
  | written {value old : Value} {mid last : Machine} :
    e.evaluate host caller m = .done value mid → p.evaluate host caller mid = .done old mid →
    mid.Rewritten place old value last → p.evaluate host caller last = .done value last →
    AssignmentEnds host caller place p e m (.done .next last)
  /-- there is no such place once the value is found; nothing has changed since then -/
  | lost {value : Value} {d : Diagnostic} {mid : Machine} :
    e.evaluate host caller m = .done value mid → p.evaluate host caller mid = .failed d mid →
    AssignmentEnds host caller place p e m (.failed d mid)
  /-- there is no value -/
  | failed {d : Diagnostic} {mid : Machine} : e.evaluate host caller m = .failed d mid →
    AssignmentEnds host caller place p e m (.failed d mid)
  /-- there was too little fuel for the value -/
  | exhausted : e.evaluate host caller m = .exhausted →
    AssignmentEnds host caller place p e m .exhausted

/-- An assignment to an expression that designates a place changes that place. -/
theorem Expr.assign_eq_change (host : Host) (caller : Caller) (e : Expr) :
    ∀ {p : Expr} {place : Place}, p.place? = some place → p.assign host caller e = (do
      let value ← e.evaluate host caller
      place.change fun _ => .ok value)
  | .name n _ span, _, h => by
    obtain rfl := Option.some.inj h
    rw [Expr.assign]
    congr 1
    funext value m
    rw [Run.change, Machine.assign_eq]
    rfl
  | .member receiver n _ span, _, h => by
    obtain ⟨place, hplace, rfl⟩ := Option.map_eq_some_iff.mp h
    rw [Expr.assign]
    simp only [hplace]
    congr 1
    funext value m
    simp only [Place.change, Place.field, Value.change_setField]

theorem Expr.assign_temporary (host : Host) (caller : Caller) {receiver : Expr}
    (h : receiver.place? = none) (e : Expr) (n : String) (binding : Option Variable)
    (span : Span) (m : Machine) :
    ((Expr.member receiver n binding span).assign host caller e m).last? = Outcome.last? ((do
      let _ ← e.evaluate host caller
      receiver.evaluate host caller : Run Value) m) := by
  rw [Expr.assign]
  simp only [h]
  cases hvalue : e.evaluate host caller m with
  | failed d mid => rw [Run.bind_of_failed hvalue, Run.bind_of_failed hvalue]; rfl
  | exhausted => rw [Run.bind_of_exhausted hvalue, Run.bind_of_exhausted hvalue]; rfl
  | done value mid =>
    rw [Run.bind_of_done hvalue, Run.bind_of_done hvalue]
    cases htemporary : receiver.evaluate host caller mid with
    | failed d last => rw [Run.bind_of_failed htemporary]; rfl
    | exhausted => rw [Run.bind_of_exhausted htemporary]; rfl
    | done temporary last =>
      rw [Run.bind_of_done htemporary]
      cases temporary.setField n value span.start <;> rfl

/-- What an assignment to an expression that designates a place comes to. -/
theorem Stmt.assignment_ends (host : Host) (caller : Caller) (fuel : Nat) {p : Expr} {place : Place}
    (hp : p.place? = some place) (e : Expr) (span : Span) (m : Machine) :
    AssignmentEnds host caller place p e m ((assignment p e span).execute host caller fuel m) := by
  rw [execute, Expr.assign_eq_change host caller e hp]
  cases hvalue : e.evaluate host caller m with
  | failed d mid =>
    rw [Run.bind_of_failed (Run.bind_of_failed hvalue)]
    exact .failed hvalue
  | exhausted =>
    rw [Run.bind_of_exhausted (Run.bind_of_exhausted hvalue)]
    exact .exhausted hvalue
  | done value mid =>
    have hp := fun m => congrFun (Place.evaluate_eq_resolve host caller hp) m
    have hends := place.change_ends (fun _ => .ok value) mid
    cases hchange : place.change (fun _ => .ok value) mid with
    | exhausted =>
      rw [hchange] at hends
      cases hends
    | done result last =>
      rw [hchange] at hends
      rw [Run.bind_of_done ((Run.bind_of_done hvalue).trans hchange)]
      cases hends with
      | changed hold hnew hlast =>
        obtain rfl := Except.ok.inj hnew
        refine .written hvalue ((hp mid).trans ?_) hlast ((hp last).trans ?_)
        · exact Run.look_of_ok hold
        · exact Run.look_of_ok (Place.resolve_of_rewritten hlast)
    | failed d last =>
      rw [hchange] at hends
      rw [Run.bind_of_failed ((Run.bind_of_done hvalue).trans hchange)]
      cases hends with
      | refused _ hnew => cases hnew
      | lost hlost => exact .lost hvalue ((hp mid).trans (Run.look_of_error hlost))

/-- Evaluation of an expression that designates a place finds what is in the place, or fails as a
change of the place fails, whatever the change; an assignment to it puts the value there and changes
nothing else, or nothing at all once the value was found. An assignment to a field of what is no
place leaves the machine as it is when the value and then the receiver were found. -/
theorem Stmt.assignment_changes_one_place (host : Host) (caller : Caller) (fuel : Nat)
    (m : Machine) :
    (∀ (p : Expr) (place : Place), p.place? = some place →
      p.evaluate host caller m = Run.look place.resolve m ∧
      (∀ f, place.ChangeEnds f m (place.change f m)) ∧
      ∀ e span, AssignmentEnds host caller place p e m
        ((assignment p e span).execute host caller fuel m)) ∧
    ∀ (receiver : Expr) (n : String) (binding : Option Variable) (inner span : Span) (e : Expr),
      receiver.place? = none →
      ((assignment (.member receiver n binding inner) e span).execute host caller fuel m).last? =
        Outcome.last? ((do
          let _ ← e.evaluate host caller
          receiver.evaluate host caller : Run Value) m) := by
  constructor
  · intro p place hp
    refine ⟨congrFun (Place.evaluate_eq_resolve host caller hp) m, ?_, ?_⟩
    · intro f
      exact place.change_ends f m
    · intro e span
      exact assignment_ends host caller fuel hp e span m
  · intro receiver n binding inner span e hreceiver
    rw [← Expr.assign_temporary host caller hreceiver e n binding inner, execute]
    cases hassign : Expr.assign host caller (.member receiver n binding inner) e m with
    | done result last => rw [Run.bind_of_done hassign]; rfl
    | failed d last => rw [Run.bind_of_failed hassign]; rfl
    | exhausted => rw [Run.bind_of_exhausted hassign]; rfl

namespace Machine

/-- A record with two whole numbers. -/
def pair (x y : Int) : Value :=
  .ofFields (.record "Pair" "Pair" [("x", .integer), ("y", .integer)] [])
    [("x", .integer x), ("y", .integer y)] []

/-- A record with a pair in it. -/
def nest (x : Int) : Value :=
  .ofFields (.record "Nest" "Nest" [("inner", .any), ("z", .integer)] [])
    [("inner", pair x 2), ("z", .integer 3)] []

/-- A machine in a block with a record, where the block has a copy of the record and the root has a
variable of the same name. -/
def shadowing (a : Value) : Machine where
  scopes := ⟨#[.ofLists none [("a", pair 4 5)] [],
    .ofLists (some Scopes.root) [("b", nest 1), ("a", a)] []]⟩
  scope := 1
  printer := .empty

/-- The pair in the record, `a.inner`. -/
def nestedPair : Expr := .member (.name "a" none default) "inner" none default

/-- A field of the pair in the record, `a.inner.x`. -/
def nestedField : Expr := .member nestedPair "x" none default

/-- A field of the record in the record is given the value seven. Neither are methods called, nor
functions. -/
theorem nestedField_assigned :
    let host : Host := fun _ receiver _ => .ok receiver
    let caller : Caller := fun _ _ _ => .exhausted
    let place : Place := ⟨"a", default, [("inner", default), ("x", default)]⟩
    let seven : Expr := .literal (.integer 7) none default
    nestedField.place? = some place ∧
    (Stmt.assignment nestedField seven default).execute host caller 0 (shadowing (nest 1)) =
      .done .next (shadowing (nest 7)) ∧
    (shadowing (nest 1)).Rewritten place (.integer 1) (.integer 7) (shadowing (nest 7)) ∧
    nestedField.evaluate host caller (shadowing (nest 7)) =
      .done (.integer 7) (shadowing (nest 7)) ∧
    (Expr.group nestedPair none default).place? = none ∧
    ((Stmt.assignment (.member (.group nestedPair none default) "x" none default) seven
      default).execute host caller 0 (shadowing (nest 1))).last? = some (shadowing (nest 1)) := by
  intro host caller place seven
  have hone := Stmt.assignment_changes_one_place host caller 0 (shadowing (nest 1))
  have hrun : (Stmt.assignment nestedField seven default).execute host caller 0
      (shadowing (nest 1)) = .done .next (shadowing (nest 7)) := rfl
  have hends := (hone.1 nestedField place rfl).2.2 seven default
  rw [hrun] at hends
  cases hends with
  | written hvalue hold hrewritten hnew =>
    obtain ⟨rfl, rfl⟩ := Outcome.done.inj hvalue
    obtain ⟨rfl, -⟩ := Outcome.done.inj hold
    refine ⟨rfl, hrun, hrewritten, hnew, rfl, ?_⟩
    exact hone.2 (.group nestedPair none default) "x" none default default seven rfl

end Machine

end TeachLang
