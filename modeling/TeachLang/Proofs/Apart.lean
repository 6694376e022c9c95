import TeachLang.Proofs.Lockstep

/-!
# Machines side by side

Two machines do the same work with their new scopes in different places. `Apart M N m n` says that
`m` and `n` are what became of `M` and `N` so far: they have the same root, the same scopes behind
those of `M` and `N`, and the old scopes of each as they were. Places are `Matched` if both are that
of the root, or both come as far behind the old scopes.

A root is the same if it has the same variables and functions; they may have been defined in another
order, which no program can tell.
-/

namespace TeachLang

/-- The roots of two machines have the same variables with the same values, and the same functions,
in whatever order. -/
structure Machine.SameRoot (m n : Machine) : Prop where
  /-- the values -/
  values : ∀ name, m.scopes.variableIn? name Scopes.root = n.scopes.variableIn? name Scopes.root
  /-- the functions -/
  functions : ∀ name arity, m.scopes.functionIn? name arity Scopes.root =
    n.scopes.functionIn? name arity Scopes.root

/-- The places of the same scope on two machines that had `k` and `l` scopes before: the root, or
one of the new scopes. -/
def Matched (k l i j : Nat) : Prop :=
  (i = Scopes.root ∧ j = Scopes.root) ∨ ∃ n, i = k + n ∧ j = l + n

/-- The same scope in two places. -/
structure Scope.Twins (k l : Nat) (a b : Scope Value Callable) : Prop where
  /-- it is nested in the same scope -/
  parent : Option.Rel (Matched k l) a.parent b.parent
  /-- it has the same variables -/
  bindings : ∀ name, a.bindings.lookup name = b.bindings.lookup name
  /-- it has the same functions -/
  functions : ∀ key, a.functions.lookup key = b.functions.lookup key

/-- What became of a machine that had a root, in runs behind its scopes. -/
structure Machine.Beyond (m last : Machine) : Prop where
  /-- it is sound -/
  sound : last.Sound
  /-- it had a root -/
  live : 0 < m.depth
  /-- the scopes other than the root are as they were -/
  scopes : ∀ id, id ≠ Scopes.root → id < m.depth → last.scopes.get? id = m.scopes.get? id

/-- What became of two machines `M` and `N` in runs that do the same. -/
structure Apart (M N m n : Machine) : Prop where
  /-- the one -/
  left : M.Beyond m
  /-- the other -/
  right : N.Beyond n
  /-- they have got as many scopes -/
  depths : ∃ d, m.depth = M.depth + d ∧ n.depth = N.depth + d
  /-- they have the same root and the same new scopes -/
  scopes : ∀ {i j}, Matched M.depth N.depth i j →
    Option.Rel (Scope.Twins M.depth N.depth) (m.scopes.get? i) (n.scopes.get? j)
  /-- the program stands in the same scope -/
  scope : Matched M.depth N.depth m.scope n.scope
  /-- the same was printed -/
  printed : ∃ more, m.printer = M.printer.append more ∧ n.printer = N.printer.append more

/-- No two places of one machine are matched with the same place of the other. -/
theorem Matched.eq_iff {k l i j i' j' : Nat} (h : Matched k l i j) (h' : Matched k l i' j')
    (hk : 0 < k) (hl : 0 < l) : i = i' ↔ j = j' := by
  have hroot : Scopes.root = 0 := rfl
  rcases h with ⟨rfl, rfl⟩ | ⟨d, rfl, rfl⟩ <;> rcases h' with ⟨rfl, rfl⟩ | ⟨d', rfl, rfl⟩ <;> omega

namespace Scope

variable {V : Type} {as bs : List (String × V)}

theorem rebind_of_lookup_eq_none {name : String} (value : V) (h : bs.lookup name = none) :
    rebind name value bs = bs := by
  induction bs with
  | nil => rfl
  | cons b bs ih =>
    obtain ⟨x, u⟩ := b
    rw [List.lookup_cons] at h
    by_cases hx : name = x
    · rw [beq_iff_eq.mpr hx] at h
      cases h
    · rw [beq_eq_false_iff_ne.mpr hx] at h
      rw [rebind, if_neg (Ne.symm hx), ih h]

/-- What is found after a change only depends on what was found before. -/
theorem lookup_rebind_congr (h : ∀ n, as.lookup n = bs.lookup n) (name : String) (value : V)
    (n : String) : (rebind name value as).lookup n = (rebind name value bs).lookup n := by
  cases hb : bs.lookup name with
  | none =>
    rw [rebind_of_lookup_eq_none value ((h name).trans hb), rebind_of_lookup_eq_none value hb, h]
  | some old =>
    rw [lookup_rebind (by rw [h, hb]; rfl), lookup_rebind (by rw [hb]; rfl), h]

end Scope

namespace Scope.Twins

variable {k l : Nat} {a b : Scope Value Callable}

theorem get?_variableTable (h : Scope.Twins k l a b) (name : String) :
    a.variableTable.get? name = b.variableTable.get? name := by
  rw [a.get?_variableTable, b.get?_variableTable, h.bindings]

theorem get?_functionTable (h : Scope.Twins k l a b) (key : String × Nat) :
    a.functionTable.get? key = b.functionTable.get? key := by
  rw [a.get?_functionTable, b.get?_functionTable, h.functions]

end Scope.Twins

/-- The root is not nested in anything. -/
theorem Scopes.Rooted.parent_root {V F : Type} {s : Scopes V F} (hs : s.Rooted) {scope : Scope V F}
    (h : s.get? root = some scope) : scope.parent = none := by
  rcases hs.nested h with ⟨hnone, -⟩ | ⟨p, -, hlt, -⟩
  · exact hnone
  · exact absurd hlt (Nat.not_lt_zero p)

namespace Machine.SameRoot

variable {k l : Nat} {m n : Machine}

theorem twins (h : m.SameRoot n) (hm : m.Sound) (hn : n.Sound) :
    Option.Rel (Scope.Twins k l) (m.scopes.get? Scopes.root) (n.scopes.get? Scopes.root) := by
  obtain ⟨a, ha⟩ : ∃ a, m.scopes.get? Scopes.root = some a :=
    Scopes.get?_eq_some_of_lt hm.depth_pos
  obtain ⟨b, hb⟩ : ∃ b, n.scopes.get? Scopes.root = some b :=
    Scopes.get?_eq_some_of_lt hn.depth_pos
  have hvalues := h.values
  have hfunctions := h.functions
  simp only [Scopes.variableIn?_eq, Scopes.bindings_eq ha, Scopes.bindings_eq hb] at hvalues
  simp only [Scopes.functionIn?_eq ha, Scopes.functionIn?_eq hb] at hfunctions
  rw [ha, hb]
  refine .some ⟨?_, hvalues, fun key => hfunctions key.1 key.2⟩
  rw [hm.rooted.parent_root ha, hn.rooted.parent_root hb]
  exact .none

theorem of_twins (h : Option.Rel (Scope.Twins k l) (m.scopes.get? Scopes.root)
    (n.scopes.get? Scopes.root)) : m.SameRoot n := by
  constructor
  · intro name
    rw [Scopes.variableIn?, Scopes.variableIn?]
    generalize m.scopes.get? Scopes.root = a at h ⊢
    generalize n.scopes.get? Scopes.root = b at h ⊢
    cases h with
    | none => rfl
    | some hab => exact hab.get?_variableTable name
  · intro name arity
    rw [Scopes.functionIn?, Scopes.functionIn?]
    generalize m.scopes.get? Scopes.root = a at h ⊢
    generalize n.scopes.get? Scopes.root = b at h ⊢
    cases h with
    | none => rfl
    | some hab => exact hab.get?_functionTable (name, arity)

end Machine.SameRoot

namespace Machine.Beyond

variable {m last last' : Machine} {i : Nat}

theorem modify (h : m.Beyond last) {change : Scope Value Callable → Scope Value Callable}
    (hi : i = Scopes.root ∨ m.depth ≤ i)
    (hsound : Machine.Sound { last with scopes := ⟨last.scopes.scopes.modify i change⟩ }) :
    m.Beyond { last with scopes := ⟨last.scopes.scopes.modify i change⟩ } := by
  refine ⟨hsound, h.live, fun id hid hlt => ?_⟩
  refine Array.getElem?_modify.trans ?_
  rw [if_neg, ← h.scopes id hid hlt, Scopes.get?]
  rcases hi with rfl | hi <;> omega

theorem enter (h : m.Beyond last) (hdepth : m.depth ≤ last.depth) (hi : i < last.depth) :
    m.Beyond (last.enter i) := by
  refine ⟨h.sound.enter hi, h.live, fun id hid hlt => ?_⟩
  have hold : id ≠ last.scopes.depth := Nat.ne_of_lt (Nat.lt_of_lt_of_le hlt hdepth)
  refine (last.scopes.get?_child i id).trans ?_
  rw [if_neg hold]
  exact h.scopes id hid hlt

theorem leave (h : m.Beyond last) (h' : m.Beyond last') (hdepth : m.depth ≤ last.depth)
    (hkeeps : last.Keeps none none (last'.leave last.scopes.fresh last.scope)) :
    m.Beyond (last'.leave last.scopes.fresh last.scope) := by
  refine ⟨h.sound.of_keeps hkeeps (.inl rfl), h.live, fun id hid hlt => ?_⟩
  refine (last'.scopes.get?_release h.sound.depth_pos id).trans ?_
  rw [if_pos (Nat.lt_of_lt_of_le hlt hdepth)]
  exact h'.scopes id hid hlt

theorem print (h : m.Beyond last) (more : String) :
    m.Beyond { last with printer := last.printer.append more } :=
  ⟨⟨h.sound.rooted, h.sound.live, h.sound.methods⟩, h.live, h.scopes⟩

end Machine.Beyond

namespace Apart

variable {M N m n m' n' : Machine} {i j : Nat}

theorem chain (h : Apart M N m n) : ∀ {i j : Nat}, i < m.depth → Matched M.depth N.depth i j →
    List.Forall₂ (Matched M.depth N.depth) (m.scopes.chain i) (n.scopes.chain j) := by
  intro i
  induction i using Nat.strongRecOn with
  | ind i ih =>
    intro j hi hij
    obtain ⟨a, ha⟩ := Scopes.get?_eq_some_of_lt hi
    have hscope := h.scopes hij
    rw [ha] at hscope
    cases hb : n.scopes.get? j with
    | none =>
      rw [hb] at hscope
      cases hscope
    | some b =>
      rw [hb] at hscope
      cases hscope with
      | some htwins =>
        rw [h.left.sound.rooted.chain_eq ha, h.right.sound.rooted.chain_eq hb]
        refine .cons hij ?_
        have hparent := htwins.parent
        rcases h.left.sound.rooted.nested ha with ⟨hnone, -⟩ | ⟨p, hp, hlt, -⟩
        · rw [hnone] at hparent ⊢
          generalize b.parent = q at hparent ⊢
          cases hparent
          exact .nil
        · rw [hp] at hparent ⊢
          generalize b.parent = q at hparent ⊢
          cases hparent with
          | some hpq => exact ih p hlt (Nat.lt_trans hlt hi) hpq

theorem variableIn?_eq (h : Apart M N m n) (name : String) (hij : Matched M.depth N.depth i j) :
    m.scopes.variableIn? name i = n.scopes.variableIn? name j := by
  have hscope := h.scopes hij
  rw [Scopes.variableIn?, Scopes.variableIn?]
  generalize m.scopes.get? i = a at hscope ⊢
  generalize n.scopes.get? j = b at hscope ⊢
  cases hscope with
  | none => rfl
  | some htwins => exact htwins.get?_variableTable name

/-- A name has the same home. -/
theorem home? (h : Apart M N m n) (name : String) :
    Option.Rel (Matched M.depth N.depth) (m.scopes.home? m.scope name)
      (n.scopes.home? n.scope name) := by
  rw [Scopes.home?, Scopes.home?]
  have hchain := h.chain h.left.sound.live h.scope
  generalize m.scopes.chain m.scope = is at hchain ⊢
  generalize n.scopes.chain n.scope = js at hchain ⊢
  induction hchain with
  | nil => exact .none
  | @cons i j is js hij _ ih =>
    rw [List.find?_cons, List.find?_cons, h.variableIn?_eq name hij]
    cases (n.scopes.variableIn? name j).isSome with
    | true => exact .some hij
    | false => exact ih

theorem lookupVariable_eq (h : Apart M N m n) (name : String) (position : Position) :
    m.lookupVariable name position = n.lookupVariable name position := by
  have hnearest : m.scopes.nearestVariable? m.scope name =
      n.scopes.nearestVariable? n.scope name := by
    have hhome := h.home? name
    rw [Scopes.nearestVariable?_eq_home?, Scopes.nearestVariable?_eq_home?]
    generalize m.scopes.home? m.scope name = a at hhome ⊢
    generalize n.scopes.home? n.scope name = b at hhome ⊢
    cases hhome with
    | none => rfl
    | some hij => exact h.variableIn?_eq name hij
  rw [Machine.lookupVariable, Machine.lookupVariable, Scopes.lookupVariable, Scopes.lookupVariable,
    hnearest]

end Apart

/-- What can be called only depends on the root. -/
theorem Machine.SameRoot.lookupFunction_eq {m n : Machine} (h : m.SameRoot n) (hm : m.Sound)
    (hn : n.Sound) (name : String) (arity : Nat) (position : Position) :
    m.lookupFunction name arity position = n.lookupFunction name arity position := by
  rw [Machine.lookupFunction, Machine.lookupFunction, Scopes.lookupFunction, Scopes.lookupFunction,
    hm.rooted.nearestFunction?_eq name arity hm.live,
    hn.rooted.nearestFunction?_eq name arity hn.live, h.functions]

namespace Apart

variable {M N m n m' n' : Machine} {i j : Nat}

theorem sameRoot (h : Apart M N m n) : m.SameRoot n := .of_twins (h.scopes (.inl ⟨rfl, rfl⟩))

theorem depth_le (h : Apart M N m n) : M.depth ≤ m.depth ∧ N.depth ≤ n.depth := by
  obtain ⟨d, hm, hn⟩ := h.depths
  omega

/-- The same change of the same scope. -/
theorem modify (h : Apart M N m n) (hij : Matched M.depth N.depth i j)
    {change : Scope Value Callable → Scope Value Callable}
    (hchange : ∀ {a b}, Scope.Twins M.depth N.depth a b →
      Scope.Twins M.depth N.depth (change a) (change b))
    (hleft : Machine.Sound { m with scopes := ⟨m.scopes.scopes.modify i change⟩ })
    (hright : Machine.Sound { n with scopes := ⟨n.scopes.scopes.modify j change⟩ }) :
    Apart M N { m with scopes := ⟨m.scopes.scopes.modify i change⟩ }
      { n with scopes := ⟨n.scopes.scopes.modify j change⟩ } := by
  have hget : ∀ (s : Scopes Value Callable) (home id : Nat),
      (⟨s.scopes.modify home change⟩ : Scopes Value Callable).get? id =
        if home = id then (s.get? id).map change else s.get? id :=
    fun s home id => Array.getElem?_modify
  obtain ⟨d, hd⟩ := h.depths
  refine ⟨h.left.modify ?_ hleft, h.right.modify ?_ hright, ⟨d, ?_⟩, fun {e f} hef => ?_, h.scope,
    h.printed⟩
  · exact hij.imp And.left fun ⟨_, hi, _⟩ => hi ▸ Nat.le_add_right _ _
  · exact hij.imp And.right fun ⟨_, _, hj⟩ => hj ▸ Nat.le_add_right _ _
  · exact ⟨(Array.size_modify ..).trans hd.1, (Array.size_modify ..).trans hd.2⟩
  · change Option.Rel _ ((⟨m.scopes.scopes.modify i change⟩ : Scopes Value Callable).get? e)
      ((⟨n.scopes.scopes.modify j change⟩ : Scopes Value Callable).get? f)
    have hold := h.scopes hef
    have hiff := hij.eq_iff hef h.left.live h.right.live
    rw [hget, hget]
    by_cases hi : i = e
    · rw [if_pos hi, if_pos (hiff.mp hi)]
      generalize m.scopes.get? e = a at hold ⊢
      generalize n.scopes.get? f = b at hold ⊢
      cases hold with
      | none => exact .none
      | some hab => exact .some (hchange hab)
    · rw [if_neg hi, if_neg (mt hiff.mpr hi)]
      exact hold

/-- A new scope nested in the same scope. -/
theorem enter (h : Apart M N m n) (hij : Matched M.depth N.depth i j) (hi : i < m.depth)
    (hj : j < n.depth) : Apart M N (m.enter i) (n.enter j) := by
  obtain ⟨d, hm, hn⟩ := h.depths
  have hfresh : Matched M.depth N.depth m.depth n.depth := .inr ⟨d, hm, hn⟩
  have hleft : ∀ id, (m.enter i).scopes.get? id =
      if id = m.depth then some (.empty (some i)) else m.scopes.get? id :=
    fun id => m.scopes.get?_child i id
  have hright : ∀ id, (n.enter j).scopes.get? id =
      if id = n.depth then some (.empty (some j)) else n.scopes.get? id :=
    fun id => n.scopes.get?_child j id
  refine ⟨h.left.enter h.depth_le.1 hi, h.right.enter h.depth_le.2 hj, ⟨d + 1, ?_⟩,
    fun {e f} hef => ?_, hfresh, h.printed⟩
  · exact ⟨(Scopes.depth_child ..).trans (congrArg (· + 1) hm),
      (Scopes.depth_child ..).trans (congrArg (· + 1) hn)⟩
  · have hiff := hef.eq_iff hfresh h.left.live h.right.live
    rw [hleft, hright]
    by_cases he : e = m.depth
    · rw [if_pos he, if_pos (hiff.mp he)]
      exact .some ⟨.some hij, fun _ => rfl, fun _ => rfl⟩
    · rw [if_neg he, if_neg (mt hiff.mpr he)]
      exact h.scopes hef

/-- The same scope is live on both machines or on neither. -/
theorem lt_iff (h : Apart M N m n) (hij : Matched M.depth N.depth i j) :
    i < m.depth ↔ j < n.depth := by
  obtain ⟨d, hm, hn⟩ := h.depths
  have hroot : Scopes.root = 0 := rfl
  have hM := h.left.live
  have hN := h.right.live
  rcases hij with ⟨rfl, rfl⟩ | ⟨e, rfl, rfl⟩ <;> omega

/-- Back to the scopes from before. -/
theorem leave (h : Apart M N m n) (h' : Apart M N m' n')
    (hm : m.Keeps none none (m'.leave m.scopes.fresh m.scope))
    (hn : n.Keeps none none (n'.leave n.scopes.fresh n.scope)) :
    Apart M N (m'.leave m.scopes.fresh m.scope) (n'.leave n.scopes.fresh n.scope) := by
  obtain ⟨d, hmd, hnd⟩ := h.depths
  have hleft : ∀ id, (m'.leave m.scopes.fresh m.scope).scopes.get? id =
      if id < m.depth then m'.scopes.get? id else none :=
    m'.scopes.get?_release h.left.sound.depth_pos
  have hright : ∀ id, (n'.leave n.scopes.fresh n.scope).scopes.get? id =
      if id < n.depth then n'.scopes.get? id else none :=
    n'.scopes.get?_release h.right.sound.depth_pos
  refine ⟨h.left.leave h'.left h.depth_le.1 hm, h.right.leave h'.right h.depth_le.2 hn,
    ⟨d, hm.depth.trans hmd, hn.depth.trans hnd⟩, fun {i j} hij => ?_, h.scope, h'.printed⟩
  have hiff := h.lt_iff hij
  rw [hleft, hright]
  by_cases hi : i < m.depth
  · rw [if_pos hi, if_pos (hiff.mp hi)]
    exact h'.scopes hij
  · rw [if_neg hi, if_neg (mt hiff.mpr hi)]
    exact .none

theorem declare (h : Apart M N m n) (name : String) (value : Value) (position : Position) :
    (∃ d, m.declare name value position = .error d ∧ n.declare name value position = .error d) ∨
      ∃ m' n', m.declare name value position = .ok m' ∧ n.declare name value position = .ok n' ∧
        Apart M N m' n' := by
  refine (Machine.declare_alike (h.variableIn?_eq name h.scope) value position).imp_right ?_
  rintro ⟨hleft, hright⟩
  refine ⟨_, _, hleft, hright, h.modify h.scope (fun hab => ?_) ?_ ?_⟩
  · refine ⟨hab.parent, fun n => ?_, hab.functions⟩
    rw [Scope.bindings_extend, Scope.bindings_extend, List.lookup_append, List.lookup_append,
      hab.bindings]
  · exact h.left.sound.of_keeps (Machine.keeps_declare hleft) (.inl rfl)
  · exact h.right.sound.of_keeps (Machine.keeps_declare hright) (.inl rfl)

theorem assign (h : Apart M N m n) (name : String) (value : Value) (position : Position) :
    (∃ d, m.assign name value position = .error d ∧ n.assign name value position = .error d) ∨
      ∃ m' n', m.assign name value position = .ok m' ∧ n.assign name value position = .ok n' ∧
        Apart M N m' n' := by
  refine (Machine.assign_alike (h.home? name) value position).imp_right ?_
  rintro ⟨i, j, hij, hleft, hright⟩
  refine ⟨_, _, hleft, hright, h.modify hij (fun hab => ?_) ?_ ?_⟩
  · refine ⟨hab.parent, ?_, hab.functions⟩
    rw [Scope.bindings_setVariable, Scope.bindings_setVariable]
    exact Scope.lookup_rebind_congr hab.bindings name value
  · exact h.left.sound.of_keeps (Machine.keeps_assign hleft) (.inl rfl)
  · exact h.right.sound.of_keeps (Machine.keeps_assign hright) (.inl rfl)

theorem print (h : Apart M N m n) (more : String) :
    Apart M N { m with printer := m.printer.append more }
      { n with printer := n.printer.append more } := by
  obtain ⟨before, hleft, hright⟩ := h.printed
  refine ⟨h.left.print more, h.right.print more, h.depths, h.scopes, h.scope, before ++ more, ?_,
    ?_⟩
  · rw [hleft, Printer.append_append]
  · rw [hright, Printer.append_append]

/-- Two machines with the same root are apart once they stand in it. -/
theorem start (hM : M.Sound) (hN : N.Sound) (hroot : M.SameRoot N) :
    Apart M N { M with scope := Scopes.root } { N with scope := Scopes.root } := by
  have hadded : ∀ (m : Machine) (i : Nat), m.scopes.get? (m.depth + i) = none :=
    fun m i => Array.getElem?_eq_none (Nat.le_add_right _ _)
  refine ⟨⟨⟨hM.rooted, hM.depth_pos, hM.methods⟩, hM.depth_pos, fun _ _ _ => rfl⟩,
    ⟨⟨hN.rooted, hN.depth_pos, hN.methods⟩, hN.depth_pos, fun _ _ _ => rfl⟩, ⟨0, rfl, rfl⟩,
    fun {i j} hij => ?_, .inl ⟨rfl, rfl⟩, "", M.printer.append_empty.symm,
    N.printer.append_empty.symm⟩
  rcases hij with ⟨rfl, rfl⟩ | ⟨d, rfl, rfl⟩
  · exact hroot.twins hM hN
  · rw [hadded M d, hadded N d]
    exact .none

end Apart

end TeachLang
