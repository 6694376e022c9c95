/-!
# Tables

A **table** holds values under keys. The entries stand in the order in which they were added, and an
**index** knows the place of each key among them, so that an entry is found and changed without a
search through the values.

The index never gets out of step with the entries (`Table.indexed`). So a table is as good as the
list of its entries, in which the first entry under a key counts: that is what is looked up in it
(`Table.get?_eq`), and two tables with the same entries are the same (`Table.ext_toList`).
-/

namespace TeachLang

/-- Values under keys. -/
structure Table (K V : Type) where
  /-- the entries, the oldest first -/
  entries : Array (K × V)
  /-- the place of each key among the entries -/
  index : List (K × Nat)
  /-- the index has the keys of the entries, each with its place -/
  indexed : index = (entries.toList.map Prod.fst).zipIdx

namespace Table

variable {K V W : Type}

/-- A table without entries. -/
def empty : Table K V := ⟨#[], [], rfl⟩

/-- A table with the given entries. -/
def ofList (entries : List (K × V)) : Table K V :=
  ⟨entries.toArray, (entries.map Prod.fst).zipIdx, rfl⟩

/-- The entries as a list. -/
def toList (t : Table K V) : List (K × V) := t.entries.toList

/-- The place of a key. -/
def place? [BEq K] (t : Table K V) (key : K) : Option Nat := t.index.lookup key

/-- The value under a key. -/
def get? [BEq K] (t : Table K V) (key : K) : Option V :=
  (t.place? key).bind fun place => t.entries[place]?.map Prod.snd

/-- Adds an entry behind all others. -/
def push (t : Table K V) (key : K) (value : V) : Table K V where
  entries := t.entries.push (key, value)
  index := t.index ++ [(key, t.entries.size)]
  indexed := by simp [t.indexed, List.zipIdx_append]

/-- The table with another value in a place. -/
def setAt (t : Table K V) (place : Nat) (value : V) : Table K V where
  entries := t.entries.modify place fun entry => (entry.1, value)
  index := t.index
  indexed := by
    rw [t.indexed]
    congr 1
    apply List.ext_getElem?
    intro i
    simp only [List.getElem?_map, Array.getElem?_toList, Array.getElem?_modify]
    split
    · cases t.entries[i]? <;> rfl
    · rfl

/-- The table with another value under a key, if it has the key. -/
def set [BEq K] (t : Table K V) (key : K) (value : V) : Table K V :=
  (t.place? key).elim t (t.setAt · value)

/-- The table with every value replaced. -/
def map (f : V → W) (t : Table K V) : Table K W where
  entries := t.entries.map fun entry => (entry.1, f entry.2)
  index := t.index
  indexed := by simp [t.indexed, Function.comp_def]

/-! ## Tables as lists -/

/-- Tables are the same if their entries are. -/
theorem ext_toList {t u : Table K V} (h : t.toList = u.toList) : t = u := by
  obtain ⟨entries, index, hindex⟩ := t
  obtain ⟨entries', index', hindex'⟩ := u
  obtain rfl : entries = entries' := Array.toList_inj.mp h
  obtain rfl : index = index' := hindex.trans hindex'.symm
  rfl

@[simp] theorem toList_empty : (empty : Table K V).toList = [] := rfl

@[simp] theorem toList_ofList (entries : List (K × V)) : (ofList entries).toList = entries := rfl

@[simp] theorem toList_push (t : Table K V) (key : K) (value : V) :
    (t.push key value).toList = t.toList ++ [(key, value)] :=
  Array.toList_push

@[simp] theorem toList_map (f : V → W) (t : Table K V) :
    (t.map f).toList = t.toList.map fun entry => (entry.1, f entry.2) :=
  Array.toList_map

/-- What is replaced later can be replaced at once. -/
@[simp] theorem map_push (f : V → W) (t : Table K V) (key : K) (value : V) :
    (t.push key value).map f = (t.map f).push key (f value) :=
  ext_toList (by simp)

variable [BEq K]

/-- The index knows the first place of each key. -/
theorem place?_eq (t : Table K V) (key : K) :
    t.place? key = t.toList.findIdx? fun entry => key == entry.1 := by
  have hlookup : ∀ (entries : List (K × V)) (start : Nat),
      ((entries.map Prod.fst).zipIdx start).lookup key =
        (entries.findIdx? fun entry => key == entry.1).map (· + start) := by
    intro entries
    induction entries with
    | nil => exact fun _ => rfl
    | cons entry entries ih =>
      intro start
      rw [List.map_cons, List.zipIdx_cons, List.lookup_cons, List.findIdx?_cons]
      cases key == entry.1 with
      | true => simp
      | false =>
        rw [ih (start + 1)]
        simp [Function.comp_def, Nat.add_assoc, Nat.add_comm 1 start]
  rw [place?, t.indexed, hlookup]
  simp [toList]

/-- What is found under a key is its first entry. -/
theorem get?_eq (t : Table K V) (key : K) : t.get? key = t.toList.lookup key := by
  have hfirst : ∀ entries : List (K × V),
      ((entries.findIdx? fun entry => key == entry.1).bind
        fun place => entries[place]?.map Prod.snd) = entries.lookup key := by
    intro entries
    induction entries with
    | nil => rfl
    | cons entry entries ih =>
      rw [List.findIdx?_cons, List.lookup_cons]
      cases key == entry.1 with
      | true => simp
      | false =>
        rw [← ih, if_neg Bool.false_ne_true, Option.bind_map]
        rfl
  rw [get?, place?_eq, ← hfirst]
  simp [toList]

/-- Another value goes to the first entry of the key. -/
theorem toList_set (t : Table K V) (key : K) (value : V) :
    (t.set key value).toList =
      (t.toList.findIdx? fun entry => key == entry.1).elim t.toList fun place =>
        t.toList.modify place fun entry => (entry.1, value) := by
  rw [set, place?_eq]
  cases t.toList.findIdx? fun entry => key == entry.1 with
  | none => rfl
  | some place => exact Array.toList_modify ..

end Table

end TeachLang
