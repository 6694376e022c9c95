import TeachLang.Scope

/-!
# Fields

The fields of a record map names to things. A record does not tell in which order it was built, and
its fields are shown in the ascending order of their names, so this is the order in which they are
kept. The order is part of the type: every field comes behind a **bound**, which for all but the
first is the name before it. So there is one `Fields` only for each map.
-/

namespace TeachLang

/-- A name comes behind a bound, if there is one. -/
def Behind : Option String → String → Prop
  | none, _ => True
  | some bound, name => bound < name

theorem Behind.anywhere (name : String) : Behind none name := trivial

theorem Behind.of_lt {bound name : String} (h : bound < name) : Behind (some bound) name := h

/-- Fields in the ascending order of their names, all of them behind a bound. -/
inductive Fields (V : Type) : Option String → Type where
  /-- no fields -/
  | nil {bound : Option String} : Fields V bound
  /-- a field and those behind it -/
  | cons {bound : Option String} (name : String) (behind : Behind bound name) (value : V)
    (others : Fields V (some name)) : Fields V bound

namespace Fields

variable {V : Type} {bound : Option String}

/-- The fields with their names, in their order. -/
def toList {bound : Option String} : Fields V bound → List (String × V)
  | nil => []
  | cons name _ value others => (name, value) :: others.toList

/-- What is found under a name. -/
def lookup (fields : Fields V bound) (name : String) : Option V := fields.toList.lookup name

/-- A name that is not before another one and differs from it comes behind it. -/
theorem behind_of_not_lt {name other : String} (h : ¬ name < other) (hne : other ≠ name) :
    Behind (some other) name :=
  .of_lt (Classical.byContradiction fun hlt =>
    hne (String.le_antisymm (String.not_lt.mp h) (String.not_lt.mp hlt)))

/-- Puts something under a name, in the place of what was there if anything was. -/
def put {bound : Option String} (name : String) (hname : Behind bound name) (new : V) :
    Fields V bound → Fields V bound
  | nil => cons name hname new nil
  | cons other behind value others =>
    if hlt : name < other then cons name hname new (cons other (.of_lt hlt) value others)
    else if heq : other = name then cons other behind new others
    else cons other behind value (others.put name (behind_of_not_lt hlt heq) new)

/-- Fields with the given names. Of two with one name the later counts. -/
def ofList (fields : List (String × V)) : Fields V none :=
  fields.foldl (fun made field => made.put field.1 (.anywhere field.1) field.2) nil

/-- The fields with something else under a name that is there. -/
def set {bound : Option String} (name : String) (new : V) : Fields V bound → Fields V bound
  | nil => nil
  | cons other behind value others =>
    if other = name then cons other behind new others
    else cons other behind value (others.set name new)

@[simp] theorem toList_nil : (nil : Fields V bound).toList = [] := rfl

@[simp] theorem toList_cons (name : String) (behind : Behind bound name) (value : V)
    (others : Fields V (some name)) :
    (cons name behind value others).toList = (name, value) :: others.toList := rfl

theorem toList_set {bound : Option String} (name : String) (new : V) :
    ∀ fields : Fields V bound, (fields.set name new).toList = Scope.rebind name new fields.toList
  | nil => rfl
  | cons other behind value others => by
    rw [set, toList_cons, Scope.rebind]
    split
    · rfl
    · rw [toList_cons, toList_set name new others]

/-- After a name that is there got something else, this is found under it, and under other names
what was. -/
theorem lookup_set {name : String} {fields : Fields V bound} (h : (fields.lookup name).isSome)
    (new : V) (n : String) :
    (fields.set name new).lookup n = if n = name then some new else fields.lookup n := by
  rw [lookup, toList_set, Scope.lookup_rebind h, lookup]

/-- All names come behind the bound. -/
theorem behind_of_mem {name : String} {value : V} :
    ∀ {bound : Option String} {fields : Fields V bound}, (name, value) ∈ fields.toList →
      Behind bound name
  | bound, cons other behind _ others, h => by
    rcases List.mem_cons.mp h with heq | h
    · obtain ⟨rfl, -⟩ := Prod.mk.inj heq
      exact behind
    · have hother : other < name := behind_of_mem h
      cases bound with
      | none => trivial
      | some bound => exact String.lt_trans behind hother

/-- Every name is before those behind it. -/
theorem ascending {bound : Option String} :
    ∀ fields : Fields V bound, fields.toList.Pairwise fun f g => f.1 < g.1
  | nil => .nil
  | cons _ _ _ others => .cons (fun _ hfield => behind_of_mem hfield) others.ascending

/-- Fields are known by their list. -/
theorem ext_toList : ∀ {bound : Option String} {as bs : Fields V bound},
    as.toList = bs.toList → as = bs
  | _, nil, nil, _ => rfl
  | _, cons _ _ _ as, cons _ _ _ bs, h => by
    obtain ⟨hfirst, hothers⟩ := List.cons.inj h
    obtain ⟨rfl, rfl⟩ := Prod.mk.inj hfirst
    rw [ext_toList hothers]

end Fields

end TeachLang
