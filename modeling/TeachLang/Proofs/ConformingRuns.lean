import TeachLang.Proofs.Conformance
import TeachLang.Proofs.Points

/-!
# Types are kept up to no value

A program whose methods return what they declare keeps every value within the type that checking
gave it, or loses it to the value that stands for no value. Records are included, down to the last
of their fields, and so are assignments to parts of records.
-/

namespace TeachLang

namespace Program

/-- At every point of every run of an accepted program, all variables conform to their declared
types, what is evaluated conforms to the types in the slots, and arguments conform to parameters, if
what the host supplies conforms and methods return what their result types take. -/
theorem conforms_at_every_point {W : World} (hW : W.Coherent) {host : Host} (hhost : W.Keeps host)
    {registry : Registry} (hregistry : ∀ ty ∈ registry.types, W.known ty)
    {types : List (String × Ty)} {functions : List Signature} {values : List (String × Value)}
    {natives : List ((String × Nat) × Native)}
    (hsupplies : (Discipline.conformance W host).Supplies types functions values natives)
    {printer : Printer} {c : Checker} {m : Machine} {p : Program}
    (hc : Checker.ofHost registry types functions = .ok c)
    (hm : Machine.ofHost printer values natives = .ok m)
    (hp : (p.check c).2.verdict = .ok ()) (hreturns : (p.check c).2.tree.Obeys .returning)
    (fuel : Nat) :
    ∃ t, (∀ n, (t.bindings Scopes.root).lookup n = types.lookup n) ∧
      ∀ q, Points host ((p.check c).2.tree.start fuel t m) q →
        (Discipline.conformance W host).Holds q := by
  have hD := Discipline.conformance_lawful hW hhost
  obtain ⟨before, frame, Δ, globals, t, htyped, hready, hframe⟩ :=
    hsupplies.typed_and_ready hD hregistry hc hm hp hreturns
  refine ⟨t, fun n => ?_, fun q hq => Discipline.holds_of_points hD htyped hready hq⟩
  rw [hready.bindings]
  exact hframe n

/-- A record of two whole numbers. -/
def pairTy : Ty := .record "Pair" "Pair" [("first", .integer), ("second", .integer)] []

/-- A program that writes to a field of a record that the host supplies. -/
def counting : Program where
  fields := []
  methods := [⟨entryName, [], some "Integer", [
    .assignment (.member (.name "pair" none default) "first" none default)
      (.binary .plus (.member (.name "pair" none default) "first" none default)
        (.member (.name "pair" none default) "second" none default) none default) default,
    .returns (.member (.name "pair" none default) "first" none default) default], none, default⟩]
  span := default

/-- The built-in types and the type of pairs, whose records have no methods. -/
def pairWorld : World := ⟨fun ty => ty ∈ pairTy :: Ty.builtins, fun _ _ => False⟩

theorem pairWorld_coherent : pairWorld.Coherent := by
  have hpair : ∀ {ty : Ty} {n : String} {v : Variable}, pairWorld.known ty →
      ty.field? n = some v → ty = pairTy := by
    intro ty n v hty hv
    rcases List.mem_cons.mp hty with rfl | hbuiltin
    · rfl
    · rw [(Ty.memberless_of_mem_builtins hbuiltin).field?_eq_none] at hv
      cases hv
  have hmethod : ∀ {ty : Ty} {n : String} {k : Nat}, pairWorld.known ty →
      ty.method? n k = none := by
    intro ty n k hty
    rcases List.mem_cons.mp hty with rfl | hbuiltin
    · rfl
    · exact (Ty.memberless_of_mem_builtins hbuiltin).method?_eq_none n k
  refine ⟨fun hty => List.mem_cons_of_mem _ hty, fun {ty n v} hty hv => ?_,
    fun hty hf => ?_, fun {a b n v} ha hb hname hv => ?_, fun ha _ _ hf => ?_⟩
  · obtain rfl := hpair hty hv
    have hmem := List.mem_reverse.mp (List.mem_of_find?_eq_some hv)
    have hinteger : v.ty = .integer := by
      rcases List.mem_cons.mp hmem with rfl | hmem
      · rfl
      · rw [List.mem_singleton.mp hmem]
        rfl
    rw [hinteger]
    exact List.mem_cons_of_mem _ (by simp [Ty.builtins])
  · rw [hmethod hty] at hf
    cases hf
  · obtain rfl := hpair ha hv
    rcases List.mem_cons.mp hb with rfl | hbuiltin
    · exact ⟨v, hv, rfl⟩
    · have hne : ∀ ty ∈ Ty.builtins, pairTy.name ≠ ty.name := by decide
      exact absurd hname (hne b hbuiltin)
  · rw [hmethod ha] at hf
    cases hf

/-- The record of the numbers one and two. -/
def onePair : Value := .ofFields pairTy [("first", .integer 1), ("second", .integer 2)] []

/-- The record has a whole number for each field of its type. -/
theorem onePair_field? {n : String} {v : Variable} (hv : pairTy.field? n = some v) :
    ∃ k : Int, onePair.field? n = some (.integer k) ∧ v.ty = .integer := by
  have hname : v.name = n :=
    beq_iff_eq.mp (List.find?_some (p := fun field : Variable => field.name == n) hv)
  have hmem := List.mem_reverse.mp (List.mem_of_find?_eq_some hv)
  rcases List.mem_cons.mp hmem with rfl | hmem
  · exact ⟨1, by rw [← hname]; rfl, rfl⟩
  · obtain rfl := List.mem_singleton.mp hmem
    exact ⟨2, by rw [← hname]; rfl, rfl⟩

theorem onePair_conforms : pairWorld.Conforms pairTy onePair := by
  refine ⟨.inr (Ty.isAssignable_self _), .record (by decide) (List.mem_cons_self ..)
    (fun n v hv => ?_) (fun n v part hv hpart => ?_) fun n k f handle hf => nomatch hf⟩
  · obtain ⟨k, hk, hty⟩ := onePair_field? hv
    exact ⟨_, hk, .inr (hty ▸ Ty.isAssignable_self _)⟩
  · obtain ⟨k, hk, -⟩ := onePair_field? hv
    obtain rfl := Option.some.inj (hk.symm.trans hpart)
    exact .atom rfl

theorem counting_conforms_at_every_point :
    ∃ registry c m, Registry.builtin.register pairTy = .ok registry ∧
      Checker.ofHost registry [("pair", pairTy)] [] = .ok c ∧
      Machine.ofHost .empty [("pair", onePair)] [] = .ok m ∧
      (counting.check c).2.verdict = .ok () ∧
      ∃ t, (∀ n, (t.bindings Scopes.root).lookup n = [("pair", pairTy)].lookup n) ∧
        ∀ q, Points (fun _ value _ => .ok value) ((counting.check c).2.tree.start 3 t m) q →
          (Discipline.conformance pairWorld fun _ value _ => .ok value).Holds q := by
  refine ⟨⟨Ty.builtins ++ [pairTy]⟩, _, _, rfl, rfl, rfl, rfl, ?_⟩
  refine conforms_at_every_point pairWorld_coherent (fun f handle hoffers => nomatch hoffers)
    (fun ty hty => ?_) ?_
    (show Checker.ofHost ⟨Ty.builtins ++ [pairTy]⟩ [("pair", pairTy)] [] = .ok _ from rfl)
    (show Machine.ofHost .empty [("pair", onePair)] [] = .ok _ from rfl) rfl ?_ 3
  · rcases List.mem_append.mp hty with hbuiltin | hpair
    · exact List.mem_cons_of_mem _ hbuiltin
    · exact List.mem_cons.mpr (.inl (List.mem_singleton.mp hpair))
  · refine ⟨fun n => Iff.rfl, fun key => Iff.rfl, fun v hv => ?_, fun f hf => (nomatch hf),
      fun {n ty value} hty hvalue => ?_, fun {f answer} hf => nomatch hf⟩
    · obtain rfl := List.mem_singleton.mp hv
      exact List.mem_cons_self ..
    · obtain ⟨-, rfl⟩ := Prod.mk.inj (List.mem_singleton.mp hty)
      obtain ⟨-, rfl⟩ := Prod.mk.inj (List.mem_singleton.mp hvalue)
      exact onePair_conforms
  · refine ⟨fun f hf => (nomatch hf), fun method hmethod f hf => ?_⟩
    obtain rfl := List.mem_singleton.mp hmethod
    obtain rfl := Option.some.inj hf
    refine ⟨⟨⟨trivial, trivial, trivial, fun _ _ _ _ => trivial⟩, ⟨trivial, fun ty hty => ?_⟩,
      trivial⟩, .inr trivial⟩
    obtain rfl := Option.some.inj hty
    exact Ty.isAssignable_self _

end Program

end TeachLang
