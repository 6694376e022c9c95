import TeachLang.Proofs.Apart

/-!
# Empty scopes are not seen

A scope without definitions may stand between a scope and those around it: no program can tell, as
nothing is ever found there. `Padded pad around own m n` says that `n` is `m` with such a scope put
into the place `pad`, nested in `around`. Scopes behind that place come one further, and what was
nested in `around` may be nested in the empty scope.

Machines of which one is padded are in lockstep. So a block makes no difference to what declares
nothing in it (`Run.inBlock_eq`).
-/

namespace TeachLang

/-- The place of a scope after another one was put into the place `pad`. -/
def shifted (pad i : Nat) : Nat := if i < pad then i else i + 1

/-- A place that stands for another after an empty scope nested in `around` was put into the place
`pad`. -/
def Moved (pad around i j : Nat) : Prop := j = shifted pad i ∨ (i = around ∧ j = pad)

/-- The same scope, nested in what stands for the scope that it was nested in. -/
structure Scope.Moved (pad around : Nat) (a b : Scope Value Callable) : Prop where
  /-- how it is nested -/
  parent : Option.Rel (TeachLang.Moved pad around) a.parent b.parent
  /-- its variables -/
  bindings : b.bindings = a.bindings
  /-- its functions -/
  functions : b.functions = a.functions

/-- A machine, and the same one with an empty scope nested in `around` put into the place `pad`. The
program may stand in that scope, unless it has to have one of its `own`. -/
structure Padded (pad around : Nat) (own : Prop) (m n : Machine) : Prop where
  /-- the one is sound -/
  left : m.Sound
  /-- and so is the other -/
  right : n.Sound
  /-- the empty scope comes behind the one that it is nested in -/
  outer : around < pad
  /-- all scopes before it are there -/
  live : pad ≤ m.depth
  /-- one scope was put in -/
  depth : n.depth = m.depth + 1
  /-- it is empty -/
  padding : n.scopes.get? pad = some (.empty (some around))
  /-- the others are there on both -/
  scopes : ∀ i, Option.Rel (Scope.Moved pad around) (m.scopes.get? i)
    (n.scopes.get? (shifted pad i))
  /-- where the program stands -/
  scope : Moved pad around m.scope n.scope
  /-- where it does not stand -/
  apart : own → n.scope ≠ pad
  /-- the same was printed -/
  printer : n.printer = m.printer

/-! ## Places -/

theorem shifted_of_lt {pad i : Nat} (h : i < pad) : shifted pad i = i := if_pos h

theorem shifted_of_le {pad i : Nat} (h : pad ≤ i) : shifted pad i = i + 1 :=
  if_neg (Nat.not_lt.mpr h)

theorem shifted_ne (pad i : Nat) : shifted pad i ≠ pad := by
  unfold shifted
  split <;> omega

theorem shifted_inj {pad i j : Nat} : shifted pad i = shifted pad j ↔ i = j := by
  unfold shifted
  split <;> split <;> omega

theorem shifted_lt {pad depth i : Nat} (h : pad ≤ depth) :
    shifted pad i < depth + 1 ↔ i < depth := by
  unfold shifted
  split <;> omega

/-- The nearest scope with a variable is the one itself, or that of the scope around it. -/
theorem Scopes.Rooted.home?_eq {V F : Type} {s : Scopes V F} (hs : s.Rooted) {id : Nat}
    {scope : Scope V F} (h : s.get? id = some scope) (name : String) :
    s.home? id name = if (scope.bindings.lookup name).isSome then some id
      else scope.parent.bind (s.home? · name) := by
  rw [home?, hs.chain_eq h, List.find?_cons, variableIn?_eq, bindings_eq h]
  cases (scope.bindings.lookup name).isSome with
  | true => rfl
  | false => cases scope.parent <;> rfl

namespace Scope

variable {pad around i : Nat} {a b : Scope Value Callable}

/-- In front of the empty scope nothing has moved. -/
theorem moved_self (ha : (a.parent = none ∧ i = Scopes.root) ∨
    ∃ p, a.parent = some p ∧ p < i ∧ a.functions = []) (hi : i < pad) : Moved pad around a a := by
  refine ⟨?_, rfl, rfl⟩
  rcases ha with ⟨hnone, -⟩ | ⟨p, hp, hlt, -⟩
  · rw [hnone]
    exact .none
  · rw [hp]
    exact .some (.inl (shifted_of_lt (Nat.lt_trans hlt hi)).symm)

theorem Moved.parent_eq (h : Moved pad around a b)
    (ha : (a.parent = none ∧ i = Scopes.root) ∨ ∃ p, a.parent = some p ∧ p < i ∧ a.functions = [])
    (hb : (b.parent = none ∧ i = Scopes.root) ∨ ∃ p, b.parent = some p ∧ p < i ∧ b.functions = [])
    (hi : i < pad) : b.parent = a.parent := by
  have hparent := h.parent
  rcases ha with ⟨ha, -⟩ | ⟨p, ha, hp, -⟩ <;> rcases hb with ⟨hb, -⟩ | ⟨q, hb, hq, -⟩ <;>
    rw [ha, hb] at hparent ⊢ <;> cases hparent
  rename_i hpq
  rcases hpq with rfl | ⟨-, rfl⟩
  · rw [shifted_of_lt (Nat.lt_trans hp hi)]
  -- a scope in front of the empty one is not nested in it
  · exact absurd hi (Nat.not_lt.mpr (Nat.le_of_lt hq))

end Scope

namespace Padded

variable {pad around : Nat} {own own' : Prop} {m n m' n' : Machine} {i j : Nat}

theorem root (h : Padded pad around own m n) : shifted pad Scopes.root = Scopes.root :=
  shifted_of_lt (Nat.zero_lt_of_lt h.outer)

theorem lt_depth (h : Padded pad around own m n) (hi : i < m.depth) : shifted pad i < n.depth := by
  rw [h.depth]
  exact (shifted_lt h.live).mpr hi

/-- A name has the same home. -/
theorem home? (h : Padded pad around own m n) (name : String) : ∀ {i j}, i < m.depth →
    Moved pad around i j →
      n.scopes.home? j name = (m.scopes.home? i name).map (shifted pad) := by
  intro i
  induction i using Nat.strongRecOn with
  | ind i ih =>
    intro j hi hij
    have hself : n.scopes.home? (shifted pad i) name =
        (m.scopes.home? i name).map (shifted pad) := by
      obtain ⟨a, ha⟩ := Scopes.get?_eq_some_of_lt hi
      have hscope := h.scopes i
      rw [ha] at hscope
      obtain ⟨b, hb⟩ : ∃ b, n.scopes.get? (shifted pad i) = some b :=
        Scopes.get?_eq_some_of_lt (h.lt_depth hi)
      rw [hb] at hscope
      cases hscope with
      | some hab =>
        rw [h.left.rooted.home?_eq ha, h.right.rooted.home?_eq hb, hab.bindings]
        cases (a.bindings.lookup name).isSome with
        | true => rfl
        | false =>
          have hparent := hab.parent
          rcases h.left.rooted.nested ha with ⟨hnone, -⟩ | ⟨p, hp, hlt, -⟩
          · rw [hnone] at hparent ⊢
            generalize b.parent = q at hparent ⊢
            cases hparent
            rfl
          · rw [hp] at hparent ⊢
            generalize b.parent = q at hparent ⊢
            cases hparent with
            | some hpq => exact ih p hlt (Nat.lt_trans hlt hi) hpq
    rcases hij with rfl | ⟨rfl, rfl⟩
    · exact hself
    -- the search goes on behind the empty scope
    · rw [h.right.rooted.home?_eq h.padding]
      rw [shifted_of_lt h.outer] at hself
      exact hself

theorem variableIn?_eq (h : Padded pad around own m n) (name : String) (i : Nat) :
    n.scopes.variableIn? name (shifted pad i) = m.scopes.variableIn? name i := by
  have hscope := h.scopes i
  rw [Scopes.variableIn?, Scopes.variableIn?]
  generalize m.scopes.get? i = a at hscope ⊢
  generalize n.scopes.get? (shifted pad i) = b at hscope ⊢
  cases hscope with
  | none => rfl
  | @some a b hab =>
    rw [Option.bind_some, Option.bind_some, a.get?_variableTable, b.get?_variableTable,
      hab.bindings]

theorem lookupVariable_eq (h : Padded pad around own m n) (name : String) (position : Position) :
    m.lookupVariable name position = n.lookupVariable name position := by
  have hnearest : m.scopes.nearestVariable? m.scope name =
      n.scopes.nearestVariable? n.scope name := by
    rw [Scopes.nearestVariable?_eq_home?, Scopes.nearestVariable?_eq_home?,
      h.home? name h.left.live h.scope]
    cases m.scopes.home? m.scope name with
    | none => rfl
    | some home => exact (h.variableIn?_eq name home).symm
  rw [Machine.lookupVariable, Machine.lookupVariable, Scopes.lookupVariable, Scopes.lookupVariable,
    hnearest]

/-- The root has the same definitions. -/
theorem sameRoot (h : Padded pad around own m n) : m.SameRoot n := by
  have hroot := h.scopes Scopes.root
  rw [h.root] at hroot
  refine ⟨fun name => ?_, fun name arity => ?_⟩
  · have hvalue := h.variableIn?_eq name Scopes.root
    rw [h.root] at hvalue
    exact hvalue.symm
  · rw [Scopes.functionIn?, Scopes.functionIn?]
    generalize m.scopes.get? Scopes.root = a at hroot ⊢
    generalize n.scopes.get? Scopes.root = b at hroot ⊢
    cases hroot with
    | none => rfl
    | @some a b hab =>
      rw [Option.bind_some, Option.bind_some, a.get?_functionTable, b.get?_functionTable,
        hab.functions]

/-! ## What runs do to them -/

/-- The same change of the same scope. -/
theorem modify (h : Padded pad around own m n) (i : Nat)
    {change : Scope Value Callable → Scope Value Callable}
    (hchange : ∀ {a b}, Scope.Moved pad around a b → Scope.Moved pad around (change a) (change b))
    (hleft : Machine.Sound { m with scopes := ⟨m.scopes.scopes.modify i change⟩ })
    (hright : Machine.Sound { n with scopes := ⟨n.scopes.scopes.modify (shifted pad i) change⟩ }) :
    Padded pad around own { m with scopes := ⟨m.scopes.scopes.modify i change⟩ }
      { n with scopes := ⟨n.scopes.scopes.modify (shifted pad i) change⟩ } := by
  have hdepth : (⟨m.scopes.scopes.modify i change⟩ : Scopes Value Callable).depth = m.depth :=
    Scopes.depth_modify ..
  refine ⟨hleft, hright, h.outer, Nat.le_trans h.live (Nat.le_of_eq hdepth.symm), ?_, ?_,
    fun e => ?_, h.scope, h.apart, h.printer⟩
  · exact (Scopes.depth_modify ..).trans (h.depth.trans (congrArg (· + 1) hdepth.symm))
  · exact (Scopes.get?_modify ..).trans ((if_neg (shifted_ne pad i)).trans h.padding)
  · change Option.Rel _ ((⟨m.scopes.scopes.modify i change⟩ : Scopes Value Callable).get? e)
      ((⟨n.scopes.scopes.modify (shifted pad i) change⟩ : Scopes Value Callable).get? _)
    have hold := h.scopes e
    rw [Scopes.get?_modify, Scopes.get?_modify]
    by_cases hi : i = e
    · rw [if_pos hi, if_pos (shifted_inj.mpr hi)]
      generalize m.scopes.get? e = a at hold ⊢
      generalize n.scopes.get? (shifted pad e) = b at hold ⊢
      cases hold with
      | none => exact .none
      | some hab => exact .some (hchange hab)
    · rw [if_neg hi, if_neg (mt shifted_inj.mp hi)]
      exact hold

/-- A new scope nested in the same scope. -/
theorem enter (h : Padded pad around own m n) (hij : Moved pad around i j) (hi : i < m.depth) :
    Padded pad around True (m.enter i) (n.enter j) := by
  have hj : j < n.depth := by
    rcases hij with rfl | ⟨-, rfl⟩
    · exact h.lt_depth hi
    · exact Scopes.lt_of_get?_eq_some h.padding
  have hfresh : n.depth = shifted pad m.depth := h.depth.trans (shifted_of_le h.live).symm
  refine ⟨h.left.enter hi, h.right.enter hj, h.outer, ?_, ?_, ?_, fun e => ?_, .inl hfresh,
    fun _ heq => ?_, h.printer⟩
  · exact Nat.le_trans h.live (Nat.le_of_lt (Nat.lt_of_lt_of_eq (Nat.lt_succ_self _)
      (Scopes.depth_child ..).symm))
  · exact (Scopes.depth_child ..).trans
      (congrArg (· + 1) (h.depth.trans (Scopes.depth_child ..).symm))
  · refine (n.scopes.get?_child j pad).trans ((if_neg fun heq => ?_).trans h.padding)
    exact shifted_ne pad m.depth (hfresh.symm.trans heq.symm)
  · change Option.Rel _ ((m.scopes.child i).get? e) ((n.scopes.child j).get? (shifted pad e))
    have hnew : shifted pad e = n.scopes.depth ↔ e = m.scopes.depth := by
      change shifted pad e = n.depth ↔ e = m.depth
      rw [hfresh, shifted_inj]
    rw [Scopes.get?_child, Scopes.get?_child]
    by_cases he : e = m.scopes.depth
    · rw [if_pos he, if_pos (hnew.mpr he)]
      exact .some ⟨.some hij, rfl, rfl⟩
    · rw [if_neg he, if_neg (mt hnew.mp he)]
      exact h.scopes e
  · exact shifted_ne pad m.depth (hfresh.symm.trans heq)

/-- Back to the scopes from before. -/
theorem leave (h : Padded pad around own m n) (h' : Padded pad around own' m' n')
    (hm : m.Keeps none none (m'.leave m.scopes.fresh m.scope))
    (hn : n.Keeps none none (n'.leave n.scopes.fresh n.scope)) :
    Padded pad around own (m'.leave m.scopes.fresh m.scope)
      (n'.leave n.scopes.fresh n.scope) := by
  have hpad : pad < n.depth := Scopes.lt_of_get?_eq_some h.padding
  refine ⟨h.left.of_keeps hm (.inl rfl), h.right.of_keeps hn (.inl rfl), h.outer,
    Nat.le_trans h.live (Nat.le_of_eq hm.depth.symm),
    hn.depth.trans (h.depth.trans (congrArg (· + 1) hm.depth.symm)), ?_, fun i => ?_, h.scope,
    h.apart, h'.printer⟩
  · exact (n'.scopes.get?_release h.right.depth_pos pad).trans ((if_pos hpad).trans h'.padding)
  · change Option.Rel _ ((m'.scopes.release m.depth).get? i)
      ((n'.scopes.release n.depth).get? (shifted pad i))
    rw [Scopes.get?_release h.left.depth_pos, Scopes.get?_release h.right.depth_pos, h.depth]
    by_cases hi : i < m.depth
    · rw [if_pos hi, if_pos ((shifted_lt h.live).mpr hi)]
      exact h'.scopes i
    · rw [if_neg hi, if_neg (mt (shifted_lt h.live).mp hi)]
      exact .none

theorem declare (h : Padded pad around True m n) (name : String) (value : Value)
    (position : Position) :
    (∃ d, m.declare name value position = .error d ∧ n.declare name value position = .error d) ∨
      ∃ m' n', m.declare name value position = .ok m' ∧ n.declare name value position = .ok n' ∧
        Padded pad around True m' n' := by
  obtain ⟨scopes, scope, printer⟩ := n
  obtain rfl : scope = shifted pad m.scope :=
    h.scope.resolve_right fun hpad => h.apart trivial hpad.2
  refine (Machine.declare_alike (h.variableIn?_eq name m.scope).symm value position).imp_right ?_
  rintro ⟨hleft, hright⟩
  have hextend : ∀ {a b}, Scope.Moved pad around a b →
      Scope.Moved pad around (a.extend [(name, value)]) (b.extend [(name, value)]) := by
    intro a b hab
    refine ⟨hab.parent, ?_, hab.functions⟩
    rw [Scope.bindings_extend, Scope.bindings_extend, hab.bindings]
  exact ⟨_, _, hleft, hright, h.modify m.scope hextend
    (h.left.of_keeps (Machine.keeps_declare hleft) (.inl rfl))
    (h.right.of_keeps (Machine.keeps_declare hright) (.inl rfl))⟩

theorem assign (h : Padded pad around own m n) (name : String) (value : Value)
    (position : Position) :
    (∃ d, m.assign name value position = .error d ∧ n.assign name value position = .error d) ∨
      ∃ m' n', m.assign name value position = .ok m' ∧ n.assign name value position = .ok n' ∧
        Padded pad around own m' n' := by
  have hhome : Option.Rel (fun i j => j = shifted pad i) (m.scopes.home? m.scope name)
      (n.scopes.home? n.scope name) := by
    rw [h.home? name h.left.live h.scope]
    cases m.scopes.home? m.scope name with
    | none => exact .none
    | some home => exact .some rfl
  refine (Machine.assign_alike hhome value position).imp_right ?_
  rintro ⟨i, -, rfl, hleft, hright⟩
  refine ⟨_, _, hleft, hright, h.modify i (fun hab => ⟨hab.parent, ?_, hab.functions⟩) ?_ ?_⟩
  · rw [Scope.bindings_setVariable, Scope.bindings_setVariable, hab.bindings]
  · exact h.left.of_keeps (Machine.keeps_assign hleft) (.inl rfl)
  · exact h.right.of_keeps (Machine.keeps_assign hright) (.inl rfl)

theorem print (h : Padded pad around own m n) (more : String) :
    Padded pad around own { m with printer := m.printer.append more }
      { n with printer := n.printer.append more } :=
  ⟨⟨h.left.rooted, h.left.live, h.left.methods⟩, ⟨h.right.rooted, h.right.live, h.right.methods⟩,
    h.outer, h.live, h.depth, h.padding, h.scopes, h.scope, h.apart,
    congrArg (·.append more) h.printer⟩

/-- A machine on its own and in a new block. -/
theorem start (hm : m.Sound) : Padded m.depth m.scope False m (m.enter m.scope) := by
  refine ⟨hm, hm.enter hm.live, hm.live, Nat.le_refl _, Scopes.depth_child .., ?_, fun i => ?_,
    .inr ⟨rfl, rfl⟩, False.elim, rfl⟩
  · exact (m.scopes.get?_child m.scope m.depth).trans (if_pos rfl)
  · have hnone : ∀ i, m.depth ≤ i → m.scopes.get? i = none := fun i => Array.getElem?_eq_none
    have hne : shifted m.depth i ≠ m.scopes.depth := shifted_ne m.depth i
    change Option.Rel _ _ ((m.scopes.child m.scope).get? (shifted m.depth i))
    rw [Scopes.get?_child, if_neg hne]
    rcases Nat.lt_or_ge i m.depth with hi | hi
    · rw [shifted_of_lt hi]
      obtain ⟨a, ha⟩ := Scopes.get?_eq_some_of_lt hi
      rw [ha]
      exact .some (Scope.moved_self (hm.rooted.nested ha) hi)
    · rw [shifted_of_le hi, hnone i hi, hnone (i + 1) (Nat.le_succ_of_le hi)]
      exact .none

/-- Where the empty scope is the last one, leaving it gives the machine without it. -/
theorem leave_eq (h : Padded pad around own m n) (hpad : m.depth = pad) :
    n.leave pad m.scope = m := by
  have hscopes : n.scopes.release pad = m.scopes := by
    refine Scopes.ext_get? fun i => ?_
    rw [Scopes.get?_release (Nat.zero_lt_of_lt h.outer)]
    have hscope := h.scopes i
    rcases Nat.lt_or_ge i pad with hi | hi
    · rw [if_pos hi]
      rw [shifted_of_lt hi] at hscope
      obtain ⟨a, ha⟩ : ∃ a, m.scopes.get? i = some a :=
        Scopes.get?_eq_some_of_lt (Nat.lt_of_lt_of_eq hi hpad.symm)
      rw [ha] at hscope ⊢
      cases hb : n.scopes.get? i with
      | none =>
        rw [hb] at hscope
        cases hscope
      | some b =>
        rw [hb] at hscope
        cases hscope with
        | some hab =>
          have hparent := Scope.Moved.parent_eq hab (h.left.rooted.nested ha)
            (h.right.rooted.nested hb) hi
          exact congrArg some (Scope.ext_lists hparent hab.bindings hab.functions)
    · rw [if_neg (Nat.not_lt.mpr hi)]
      exact (Array.getElem?_eq_none (Nat.le_trans (Nat.le_of_eq hpad) hi)).symm
  obtain ⟨scopes, scope, printer⟩ := m
  obtain ⟨scopes', scope', printer'⟩ := n
  obtain rfl : scopes'.release pad = scopes := hscopes
  obtain rfl : printer' = printer := h.printer
  rfl

end Padded

/-- Machines of which one is padded are in lockstep. -/
theorem padded_lockstep (pad around : Nat) (own : Prop) :
    Lockstep (Padded pad around own) (Padded pad around True) where
  left h := h.left
  right h := h.right
  lookupVariable h := h.lookupVariable_eq
  lookupFunction h := h.sameRoot.lookupFunction_eq h.left h.right
  declare h := h.declare
  assign h := h.assign
  block h := h.enter h.scope h.left.live
  method h := h.enter (.inl h.root.symm) h.left.depth_pos
  leave h h' := h.leave h'
  print h := h.print

/-- A block makes no difference to what declares nothing in it. -/
theorem Run.inBlock_eq {α : Type} {r : Run α} {m : Machine}
    (hrespects : ∀ pad around, r.Respects (Padded pad around False))
    (hstays : r.Stays (fun _ => none) none) (hm : m.Sound) : inBlock r m = r m := by
  have halike := hrespects m.depth m.scope m (m.enter m.scope) (.start hm)
  have hkeeps := hstays m hm.depth_pos
  have hleave : ∀ {last last' : Machine}, Padded m.depth m.scope False last last' →
      m.Keeps none none last → last'.leave m.scopes.fresh m.scope = last :=
    fun h hlast => hlast.scope ▸ h.leave_eq hlast.depth
  unfold Leaves Ensures at hkeeps
  unfold inBlock inScope
  cases hr : r m <;> cases hb : r (m.enter m.scope) <;> rw [hr, hb] at halike <;>
    rw [hr] at hkeeps <;> cases halike
  · next h => exact congrArg (Outcome.done _) (hleave h hkeeps)
  · next h => exact congrArg (Outcome.failed _) (hleave h hkeeps)

end TeachLang
