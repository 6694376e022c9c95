import TeachLang.Proofs.Fields

/-!
# Edits

A record is made by giving values to names, and changed by giving other values to fields of it or of
its parts. Each such edit gives one value to one place.

* `Value.InPlace` is what is done to a value in place. It leaves something there even if it fails,
  so that a failure which changes nothing is a theorem and not a matter of types.
* `Edit.last` is what edits give to a place last. It knows places and values only, and no record.
* `Edit.part?_of_performAll`: whatever is found in an edited record was given last.
* `Edit.last_values_decide`: so records can only be told apart by what was given last, and not by
  the order in which it was given.
-/

namespace TeachLang

namespace Value

variable {a b v after old new part : Value} {name : String} {position : Position} {path : Path}
  {fault : Diagnostic}

/-! ## Changing in place -/

/-- What is done to a value in place: the answer, and what is there afterwards. -/
abbrev InPlace := Value → Except Diagnostic Unit × Value

namespace InPlace

/-- Puts another value in place. -/
def put (new : Value) : InPlace := fun _ => (.ok (), new)

/-- Does something to a field. The record has in it what was left there, whatever the answer is. -/
def onField (name : String) (position : Position) (action : InPlace) : InPlace := fun value =>
  match value.field name position with
  | .ok part => ((action part).1, value.withField name (action part).2)
  | .error fault => (.error fault, value)

/-- Does something to the part at the end of a path. -/
def onPart (action : InPlace) : Path → InPlace
  | [] => action
  | (name, position) :: path => onField name position (onPart action path)

/-- Puts in place what comes of a value, if anything does. -/
def attempt (f : Value → Except Diagnostic Value) : InPlace := fun value =>
  match f value with
  | .ok new => (.ok (), new)
  | .error fault => (.error fault, value)

end InPlace

open InPlace

/-- A field may be given the value that it has. -/
theorem withField_self (h : v.field? name = some part) : v.withField name part = v := by
  obtain ⟨ty, fields, methods, before, behind, rfl, hfields, hwith⟩ := exists_record h
  obtain ⟨hrecord, hchanged⟩ := hwith part
  rw [hrecord, Fields.ext_toList (hchanged.trans hfields.symm)]

/-- If there is no part at the end of a path, nothing is done. -/
theorem onPart_of_missing (h : follow path v = .error fault) (action : InPlace) :
    onPart action path v = (.error fault, v) := by
  induction path generalizing v with
  | nil => cases h
  | cons step path ih =>
    obtain ⟨name, position⟩ := step
    rw [follow_cons] at h
    rw [onPart, onField]
    cases hpart : v.field name position with
    | error d =>
      rw [hpart] at h
      cases h
      rfl
    | ok part =>
      rw [hpart] at h
      simp only [ih h, withField_self (field_eq_ok.mp hpart)]

/-- Changing a part in place leaves what `change` comes to, or all as it was. -/
theorem onPart_attempt (f : Value → Except Diagnostic Value) (path : Path) :
    onPart (attempt f) path = attempt (change f path) := by
  induction path with
  | nil => rfl
  | cons step path ih =>
    obtain ⟨name, position⟩ := step
    funext v
    rw [onPart, onField, ih, attempt, change_cons]
    cases hpart : v.field name position with
    | error d => rfl
    | ok part =>
      simp only [attempt, Except.bind]
      cases change f path part with
      | error d =>
        -- the field is given what was left there, which is what it had
        simp only [withField_self (field_eq_ok.mp hpart)]
      | ok changed => rfl

theorem eq_of_attempt_fails {f : Value → Except Diagnostic Value}
    (h : attempt f v = (.error fault, after)) : after = v := by
  rw [attempt] at h
  cases hf : f v with
  | error d =>
    rw [hf] at h
    cases h
    rfl
  | ok new =>
    rw [hf] at h
    cases h

theorem attempt_eq_ok {f : Value → Except Diagnostic Value} :
    attempt f v = (.ok (), after) ↔ f v = .ok after := by
  rw [attempt]
  cases f v <;> simp

/-! ## Places -/

/-- What is found at a place if a value is put where the names lead: a part of the value, if they
lead there or to what is around it, and otherwise what was found before. -/
def overlaid (new : Value) (names place : List String) (before : Option Value) : Option Value :=
  match names.isPrefixOf? place with
  | some rest => part? rest new
  | none => before

variable {names place : List String} {n m : String} {before before' : Option Value}

theorem overlaid_nil : overlaid new [] place before = part? place new := by
  cases place <;> rfl

theorem overlaid_cons : overlaid new (n :: names) (m :: place) before =
    if m = n then overlaid new names place before else before := by
  rw [overlaid, overlaid, List.isPrefixOf?]
  by_cases hm : m = n
  · rw [if_pos hm, if_pos (beq_iff_eq.mpr hm.symm)]
  · rw [if_neg hm, if_neg fun h => hm (beq_iff_eq.mp h).symm]

/-- Nothing is laid over what is around it. -/
theorem overlaid_concat_nil : overlaid new (names ++ [n]) [] before = before := by
  cases names <;> rfl

theorem map_overlaid_congr (h : before.map withoutFields = before'.map withoutFields) :
    (overlaid new names place before).map withoutFields =
      (overlaid new names place before').map withoutFields := by
  rw [overlaid, overlaid]
  cases names.isPrefixOf? place with
  | some rest => rfl
  | none => exact h

/-! ## Values that were put into others -/

theorem exists_rewritten (h : change (fun _ => .ok new) path v = .ok after) :
    ∃ old, Rewritten old new path.names v after := by
  cases hfollow : follow path v with
  | error fault =>
    have hfails : change (fun _ => .ok new) path v = .error fault :=
      change_of_error (by rw [hfollow]; rfl)
    cases hfails.symm.trans h
  | ok old =>
    obtain ⟨changed, hchanged, hrewritten⟩ := change_rewrites (f := fun _ => .ok new) hfollow rfl
    obtain rfl := Except.ok.inj (hchanged.symm.trans h)
    exact ⟨old, hrewritten⟩

/-- The new value is found where it was put, with its parts. All other parts are what they were, but
for the fields of those around it. -/
theorem Rewritten.part?_eq (h : Rewritten old new names v after) (place : List String) :
    (part? place after).map withoutFields =
      (overlaid new names place (part? place v)).map withoutFields := by
  induction h generalizing place with
  | whole => rw [overlaid_nil]
  | @field ty n fields fields' before behind methods names part changed hfields hchanged _ ih =>
    cases place with
    | nil => rfl
    | cons m place =>
      have hlookup : fields'.lookup m = if m = n then some changed else fields.lookup m := by
        rw [Fields.lookup, hchanged, lookup_middle_if part changed behind
          (Fields.not_mem_before hfields), ← hfields, Fields.lookup]
      rw [part?, field?, hlookup, overlaid_cons, part?, field?]
      by_cases hm : m = n
      · rw [if_pos hm, if_pos hm, hm, Fields.lookup_of_toList hfields, Option.bind_some,
          Option.bind_some, ih]
      · rw [if_neg hm, if_neg hm]

/-! ## Records -/

/-- The value is a record. -/
def IsRecord : Value → Prop
  | record .. => True
  | _ => False

/-- The record with a value for a name, whether it had one or not. -/
def addField (value : Value) (name : String) (new : Value) : Value :=
  match value with
  | record ty fields methods => record ty (fields.put name (.anywhere name) new) methods
  | other => other

theorem isRecord_ofFields {ty : Ty} {fields : List (String × Value)}
    {methods : List ((String × Nat) × Nat)} : (ofFields ty fields methods).IsRecord := True.intro

theorem isRecord_congr (h : a.withoutFields = b.withoutFields) (ha : a.IsRecord) : b.IsRecord := by
  cases a with
  | atom | iterable => exact ha.elim
  | record =>
    cases b with
    | atom | iterable => cases h
    | record => trivial

theorem part?_addField (hv : v.IsRecord) (place : List String) :
    (part? place (v.addField name new)).map withoutFields =
      (overlaid new [name] place (part? place v)).map withoutFields := by
  cases v with
  | atom | iterable => exact hv.elim
  | record ty fields methods =>
    cases place with
    | nil => rfl
    | cons m place =>
      rw [part?, addField, field?, Fields.lookup_put, overlaid_cons, overlaid_nil, part?, field?]
      split_ifs <;> rfl

end Value

open Value Value.InPlace

/-! ## One edit -/

/-- A call that gives a value to a place. -/
inductive Edit where
  /-- gives it to a name of the record, whether there is such a field or not -/
  | add (name : String) (new : Value)
  /-- gives it to a field, which must be there, of the part at the end of a path -/
  | set (path : Path) (name : String) (position : Position) (new : Value)

namespace Edit

/-- The value that is given. -/
def value : Edit → Value
  | add _ new | set _ _ _ new => new

/-- The names that lead to where it is given. -/
def place : Edit → List String
  | add name _ => [name]
  | set path name _ _ => path.names ++ [name]

/-- What an edit does. -/
def perform : Edit → InPlace
  | add name new => fun v => (.ok (), v.addField name new)
  | set path name position new => onPart (put new) (path ++ [(name, position)])

variable {edit : Edit} {edits edits' : List Edit} {v after a b : Value} {place : List String}
  {fault : Diagnostic}

/-- Putting a value into a field in place is what `setField` does at the end of a path. -/
theorem perform_set (path : Path) (name : String) (position : Position) (new : Value) :
    (set path name position new).perform =
      attempt (change (·.setField name new position) path) := by
  have hsame : change (·.setField name new position) path =
      change (fun _ => .ok new) (path ++ [(name, position)]) :=
    funext (change_setField new name position path)
  rw [hsame, ← onPart_attempt]
  rfl

/-- An edit that fails changes nothing. -/
theorem eq_of_perform_fails (h : edit.perform v = (.error fault, after)) : after = v := by
  cases edit with
  | add => cases h
  | set path name position new =>
    rw [perform_set] at h
    exact eq_of_attempt_fails h

theorem rewritten_of_set {path : Path} {name : String} {position : Position} {new : Value}
    (h : (set path name position new).perform v = (.ok (), after)) :
    ∃ old, Rewritten old new (path.names ++ [name]) v after := by
  have hchange : change (fun _ => .ok new) (path ++ [(name, position)]) v = .ok after := by
    rw [← change_setField, ← attempt_eq_ok, ← perform_set, h]
  have hnames : Path.names (path ++ [(name, position)]) = path.names ++ [name] :=
    List.map_append
  rw [← hnames]
  exact exists_rewritten hchange

/-- The value is found where it was given, and all else as it was. -/
theorem part?_of_perform (hv : v.IsRecord) (h : edit.perform v = (.ok (), after))
    (place : List String) : (part? place after).map withoutFields =
      (overlaid edit.value edit.place place (part? place v)).map withoutFields := by
  cases edit with
  | add name new =>
    cases h
    exact part?_addField hv place
  | set path name position new =>
    obtain ⟨old, hrewritten⟩ := rewritten_of_set h
    exact hrewritten.part?_eq place

/-- No edit gives anything to the record itself. -/
theorem overlaid_place_nil (edit : Edit) (new : Value) (before : Option Value) :
    overlaid new edit.place [] before = before := by
  cases edit with
  | add name _ => rfl
  | set path name _ _ => exact overlaid_concat_nil

theorem isRecord_of_perform (hv : v.IsRecord) (h : edit.perform v = (.ok (), after)) :
    after.IsRecord := by
  have hparts := part?_of_perform hv h []
  rw [overlaid_place_nil] at hparts
  exact isRecord_congr (Option.some.inj hparts).symm hv

/-! ## Many edits -/

/-- What edits do one after the other, up to the first that fails. -/
def performAll : List Edit → InPlace
  | [], v => (.ok (), v)
  | edit :: edits, v =>
    match edit.perform v with
    | (.ok (), changed) => performAll edits changed
    | (.error fault, left) => (.error fault, left)

/-- What is found at a place after edits, if something was found there before. -/
def overlaidAll (edits : List Edit) (place : List String) (before : Option Value) : Option Value :=
  edits.foldl (fun before edit => overlaid edit.value edit.place place before) before

/-- What edits give to a place last. -/
def last (edits : List Edit) (place : List String) : Option Value := overlaidAll edits place none

theorem performAll_cons (h : performAll (edit :: edits) v = (.ok (), after)) :
    ∃ changed, edit.perform v = (.ok (), changed) ∧
      performAll edits changed = (.ok (), after) := by
  rw [performAll] at h
  split at h
  case h_1 changed hperform => exact ⟨changed, hperform, h⟩
  case h_2 => cases h

theorem overlaidAll_cons (edit : Edit) (edits : List Edit) (place : List String)
    (before : Option Value) : overlaidAll (edit :: edits) place before =
      overlaidAll edits place (overlaid edit.value edit.place place before) := rfl

theorem overlaidAll_nil (edits : List Edit) (before : Option Value) :
    overlaidAll edits [] before = before := by
  induction edits with
  | nil => rfl
  | cons edit edits ih => rw [overlaidAll_cons, overlaid_place_nil, ih]

/-- At every place there is what was given to it last, or else what was there before. -/
theorem part?_of_performAll {before : Option Value} (hv : v.IsRecord)
    (hbefore : (part? place v).map withoutFields = before.map withoutFields)
    (h : performAll edits v = (.ok (), after)) : (part? place after).map withoutFields =
      (overlaidAll edits place before).map withoutFields := by
  induction edits generalizing v before with
  | nil =>
    cases h
    exact hbefore
  | cons edit edits ih =>
    obtain ⟨changed, hperform, hrest⟩ := performAll_cons h
    refine ih (isRecord_of_perform hv hperform) ?_ hrest
    rw [part?_of_perform hv hperform]
    exact map_overlaid_congr hbefore

/-! ## What is given last -/

variable {ty : Ty} {methods : List ((String × Nat) × Nat)} {edits edits' : List Edit} {a b : Value}

/-- Both give the same last, to every place. A record is compared without its fields, which are
places of their own and may have been given other values later. -/
def Agree (edits edits' : List Edit) : Prop :=
  ∀ place, (last edits place).map withoutFields = (last edits' place).map withoutFields

theorem last_of_names (h : ∀ edit ∈ edits, ∃ name, edit.place = [name]) (name : String)
    (place : List String) :
    last edits (name :: place) = (last edits [name]).bind (part? place) := by
  have hall : ∀ before : Option Value,
      overlaidAll edits (name :: place) (before.bind (part? place)) =
        (overlaidAll edits [name] before).bind (part? place) := by
    induction edits with
    | nil => exact fun _ => rfl
    | cons edit edits ih =>
      intro before
      obtain ⟨⟨n, hn⟩, hrest⟩ := List.forall_mem_cons.mp h
      have hedit : overlaid edit.value edit.place (name :: place) (before.bind (part? place)) =
          (overlaid edit.value edit.place [name] before).bind (part? place) := by
        rw [hn, overlaid_cons, overlaid_cons, overlaid_nil, overlaid_nil]
        split_ifs <;> rfl
      rw [overlaidAll_cons, overlaidAll_cons, hedit, ih hrest]
  exact hall none

/-- Edits of the record's own fields agree if they give the same value to each name last. -/
theorem agree_of_names (h : ∀ edit ∈ edits, ∃ name, edit.place = [name])
    (h' : ∀ edit ∈ edits', ∃ name, edit.place = [name])
    (hlast : ∀ name, last edits [name] = last edits' [name]) : Agree edits edits' := by
  intro place
  cases place with
  | nil => rw [last, last, overlaidAll_nil, overlaidAll_nil]
  | cons name place => rw [last_of_names h, last_of_names h', hlast]

/-- Edits that agree make the same record. -/
theorem Agree.eq (h : Agree edits edits')
    (ha : performAll edits (ofFields ty [] methods) = (.ok (), a))
    (hb : performAll edits' (ofFields ty [] methods) = (.ok (), b)) : a = b := by
  refine eq_of_parts fun place => ?_
  cases place with
  | nil =>
    rw [part?_of_performAll isRecord_ofFields rfl ha, part?_of_performAll isRecord_ofFields rfl hb,
      overlaidAll_nil, overlaidAll_nil]
  | cons name place =>
    rw [part?_of_performAll isRecord_ofFields rfl ha, part?_of_performAll isRecord_ofFields rfl hb]
    exact h (name :: place)

/-- **The last values decide**. Two records that are made by edits, of themselves and of their parts
at any depth, are equal both ways round if every place was given the same last. They answer alike
for every name and have one text, which is the only one that shows each field once and in the order
of the bytes of the names, in them and in all their parts. No edit that fails and no path that leads
nowhere changes anything, whatever was to be done there. -/
theorem last_values_decide (ha : performAll edits (ofFields ty [] methods) = (.ok (), a))
    (hb : performAll edits' (ofFields ty [] methods) = (.ok (), b)) (hagree : Agree edits edits') :
    a.same b = true ∧ b.same a = true ∧
    (∀ name position, a.field name position = b.field name position) ∧
    a.text = b.text ∧ (∀ text, Shown a text ↔ text = a.text) ∧
    (∀ (path : Path) (name : String) (position : Position) (new : Value),
      (set path name position new).perform =
        attempt (change (·.setField name new position) path)) ∧
    (∀ (edit : Edit) (v after : Value) (fault : Diagnostic),
      edit.perform v = (.error fault, after) → after = v) ∧
    (∀ (path : Path) (v : Value) (fault : Diagnostic), follow path v = .error fault →
      ∀ action, onPart action path v = (.error fault, v)) := by
  obtain rfl := hagree.eq ha hb
  have hsame : a.same a = true := same_iff.mpr rfl
  exact ⟨hsame, hsame, fun _ _ => rfl, rfl, shown_iff a, perform_set,
    fun _ _ _ _ => eq_of_perform_fails, fun _ _ _ => onPart_of_missing⟩

/-- A point. -/
def point (x y : Int) : Value :=
  ofFields (.record "Point" "Point" [("x", .integer), ("y", .integer)] [])
    [("y", integer y), ("x", integer x)] []

/-- The type of a line from one point to another. -/
def lineTy : Ty := .record "Line" "Line" [("start", .any), ("end", .any)] []

/-- A line from its start to its end, with one coordinate put right. -/
def forwards : List Edit :=
  [.add "start" (point 1 0), .add "end" (point 3 4),
    .set [("start", .nowhere)] "y" .nowhere (integer 2)]

/-- The same line from its end to its start, with almost everything put right. -/
def backwards : List Edit :=
  [.add "end" (point 0 0), .add "start" nil, .set [("end", .nowhere)] "y" .nowhere (integer 4),
    .set [] "start" .nowhere (point 1 2), .set [("end", .nowhere)] "x" .nowhere (integer 3)]

theorem part?_point (x y : Int) (name : String) (place : List String) :
    part? (name :: place) (point x y) =
      if name = "x" then part? place (integer x)
      else if name = "y" then part? place (integer y) else none := by
  rw [part?, point, ofFields, field?, Fields.ofList, List.foldl_cons, List.foldl_cons,
    List.foldl_nil, Fields.lookup_put, Fields.lookup_put]
  split_ifs <;> rfl

theorem lines_agree : Agree forwards backwards := by
  intro place
  rcases place with _ | ⟨n, _ | ⟨m, place⟩⟩
  · rfl
  · by_cases hstart : n = "start"
    · rw [hstart]
      rfl
    by_cases hend : n = "end"
    · rw [hend]
      rfl
    simp [last, overlaidAll, forwards, backwards, overlaid_cons, Edit.place, Path.names, hstart,
      hend]
  · simp only [last, overlaidAll, forwards, backwards, List.foldl_cons, List.foldl_nil, Edit.place,
      Edit.value, Path.names, List.map_cons, List.map_nil, List.nil_append, List.cons_append,
      overlaid_cons, overlaid_nil, part?_point]
    split_ifs <;> simp_all

/-- Both lines are the same. Their ends have no third coordinate, so none can be changed. -/
theorem lines_decided : ∃ a b, performAll forwards (ofFields lineTy [] []) = (.ok (), a) ∧
    performAll backwards (ofFields lineTy [] []) = (.ok (), b) ∧ Agree forwards backwards ∧
    a.same b = true ∧ b.same a = true ∧ a.text = b.text ∧
    Shown a
      "Line \x7b end: Point \x7b x: 3, y: 4 \x7d, start: Point \x7b x: 1, y: 2 \x7d \x7d" ∧
    ∀ new, (set [("end", .nowhere)] "z" .nowhere new).perform a =
      (.error ⟨.undefinedName "Point.z", .nowhere⟩, a) := by
  have hforwards : performAll forwards (ofFields lineTy [] []) = (.ok (), _) := rfl
  have hbackwards : performAll backwards (ofFields lineTy [] []) = (.ok (), _) := rfl
  obtain ⟨hsame, hback, -, htext, hshown, -, -, hmissing⟩ :=
    last_values_decide hforwards hbackwards lines_agree
  refine ⟨_, _, hforwards, hbackwards, lines_agree, hsame, hback, htext, (hshown _).mpr ?_, ?_⟩
  · decide +kernel
  · intro new
    exact hmissing _ _ _ rfl _

end Edit

end TeachLang
