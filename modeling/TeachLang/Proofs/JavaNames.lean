import TeachLang.Proofs.JavaTrees
import TeachLang.Proofs.Lexical
import TeachLang.Proofs.Resolution

/-!
# Names in Java

Names of programs are emitted as they are, while types and functions that the host supplies bring
names of their own. `Checker.Named` says that all that a checker knows has a name that can be
written in Java. It holds if the host gives such names, and is kept by whatever a checker goes
through.
-/

namespace TeachLang

variable {c next : Checker} {position : Position}

/-! ## Names in Java -/

/-- Whether what is called `name` in programs has a name in Java: the same, or one that can be
written there. -/
def Java.Renders (name javaName : String) : Prop := javaName = name ∨ Java.IsPath javaName

/-- Whether the members of the values of a type have names in Java, and the members of these, and so
on. -/
inductive Ty.Named : Ty → Prop where
  /-- the fields and the methods have names -/
  | intro {ty : Ty} :
    (∀ v ∈ ty.fields, Java.Renders v.name v.javaName) → (∀ v ∈ ty.fields, v.ty.Named) →
    (∀ f ∈ ty.methods, Java.Renders f.name f.javaName) → (∀ f ∈ ty.methods, f.result.Named) →
    Ty.Named ty

/-- A variable has a name in Java, and so have the members of its values. -/
def Variable.Named (v : Variable) : Prop := Java.Renders v.name v.javaName ∧ v.ty.Named

/-- A function has a name in Java, and so have the members of its results. -/
def Signature.Named (f : Signature) : Prop := Java.Renders f.name f.javaName ∧ f.result.Named

/-- What a program declares is emitted under its own name. -/
theorem Variable.named_plain {ty : Ty} (h : ty.Named) (n : String) :
    (Variable.plain n ty).Named := ⟨.inl rfl, h⟩

/-- Where there are no members, none is without a name. -/
theorem Ty.Memberless.named {ty : Ty} (h : ty.Memberless) : ty.Named := by
  refine .intro ?_ ?_ ?_ ?_
  all_goals simp [h.1, h.2]

theorem Ty.named_of_mem_builtins {ty : Ty} (h : ty ∈ builtins) : ty.Named :=
  (memberless_of_mem_builtins h).named

/-- `PRINT` goes by the path `System.out.println`. -/
theorem Signature.named_print : Signature.print.Named := by
  have hparts : Java.parts print.javaName = ["System".toList, "out".toList, "println".toList] := by
    decide +kernel
  refine ⟨.inr ?_, Ty.named_of_mem_builtins (by simp [print, Ty.builtins])⟩
  rw [Java.IsPath, hparts]
  simp [Java.IsName, Java.startsName, Java.continuesName]

/-- A field that is found has the name that was looked for, and one in Java. -/
theorem Ty.Named.field {ty : Ty} (h : ty.Named) {n : String} {v : Variable}
    (hv : ty.field? n = some v) : v.name = n ∧ v.Named := by
  obtain ⟨hnames, htypes, -, -⟩ := h
  have hmem := List.mem_reverse.mp (List.mem_of_find?_eq_some hv)
  have hname := List.find?_some hv
  exact ⟨beq_iff_eq.mp hname, hnames v hmem, htypes v hmem⟩

/-- A method that is found has the name that was looked for, and one in Java. -/
theorem Ty.Named.method {ty : Ty} (h : ty.Named) {n : String} {k : Nat} {f : Signature}
    (hf : ty.method? n k = some f) : f.name = n ∧ f.Named := by
  obtain ⟨-, -, hnames, htypes⟩ := h
  have hmem := List.mem_reverse.mp (List.mem_of_find?_eq_some hf)
  have hfound := List.find?_some hf
  rw [Bool.and_eq_true] at hfound
  exact ⟨beq_iff_eq.mp hfound.1, hnames f hmem, htypes f hmem⟩

/-- Names of the language are names of Java. -/
theorem Java.isPath_of_isName {n : String} (h : Text.IsName n.toList) : Java.IsPath n := by
  obtain ⟨c, ds, hn, hc, hds⟩ := h
  have hpoint : ∀ l ∈ [n.toList], '.' ∉ l := by
    intro l hl hmem
    rw [List.mem_singleton.mp hl, hn] at hmem
    rcases List.mem_cons.mp hmem with rfl | hmem
    · simp at hc
    · simpa using hds '.' hmem
  have hparts : Java.parts n = [n.toList] := by
    simpa [Java.parts, List.intercalate] using List.splitOn_intercalate '.' hpoint (by simp)
  rw [Java.IsPath, hparts]
  simp only [List.mem_singleton, forall_eq]
  refine ⟨c, ds, hn, ?_, fun d hd => ?_⟩
  · simp [Java.startsName, hc]
  · simp [Java.continuesName, hds d hd]

theorem exists_of_mapM {S T : Type} {f : S → Except Diagnostic T} {items : List S}
    {results : List T} (h : items.mapM f = .ok results) {result : T} (hr : result ∈ results) :
    ∃ item ∈ items, f item = .ok result := by
  induction items generalizing results with
  | nil =>
    obtain rfl := Except.ok.inj h
    cases hr
  | cons item items ih =>
    rw [List.mapM_cons] at h
    obtain ⟨first, hfirst, hrest⟩ := ok_of_bind h
    obtain ⟨others, hothers, hlast⟩ := ok_of_bind hrest
    obtain rfl := Except.ok.inj hlast
    rcases List.mem_cons.mp hr with rfl | hr
    · exact ⟨item, List.mem_cons_self .., hfirst⟩
    · obtain ⟨found, hmem, hfound⟩ := ih hothers hr
      exact ⟨found, List.mem_cons_of_mem _ hmem, hfound⟩

/-- All that a checker knows has names in Java. -/
structure Checker.Named (c : Checker) : Prop where
  /-- variables -/
  bound : ∀ {id scope}, c.scopes.get? id = some scope →
    ∀ b ∈ scope.bindings, b.2.name = b.1 ∧ b.2.Named
  /-- functions -/
  functions : ∀ {id scope}, c.scopes.get? id = some scope →
    ∀ f ∈ scope.functions, f.2.name = f.1.1 ∧ f.2.Named
  /-- types -/
  types : ∀ ty ∈ c.registry.types, ty.Named

namespace Checker.Named

/-- A variable that is in sight is called what was looked for, and has a name in Java. -/
theorem lookupVariable (h : c.Named) {n : String} {v : Variable}
    (hv : c.lookupVariable n position = .ok v) : v.name = n ∧ v.Named := by
  rw [Checker.lookupVariable, Scopes.lookupVariable, Scopes.nearestVariable?] at hv
  split at hv
  · next hfound =>
    obtain rfl := Except.ok.inj hv
    obtain ⟨i, -, hi⟩ := List.exists_of_findSome?_eq_some hfound
    obtain ⟨scope, hscope, hlookup⟩ := Option.bind_eq_some_iff.mp hi
    exact h.bound hscope _ (mem_of_lookup ((scope.get?_variableTable n).symm.trans hlookup))
  · cases hv

/-- A function that is in sight is called what was looked for, and has a name in Java. -/
theorem lookupFunction (h : c.Named) {n : String} {k : Nat} {f : Signature}
    (hf : c.lookupFunction n k position = .ok f) : f.name = n ∧ f.Named := by
  rw [Checker.lookupFunction, Scopes.lookupFunction, Scopes.nearestFunction?] at hf
  split at hf
  · next hfound =>
    obtain rfl := Except.ok.inj hf
    obtain ⟨i, -, hi⟩ := List.exists_of_findSome?_eq_some hfound
    obtain ⟨scope, hscope, hlookup⟩ := Option.bind_eq_some_iff.mp hi
    exact h.functions hscope _
      (mem_of_lookup ((scope.get?_functionTable (n, k)).symm.trans hlookup))
  · cases hf

theorem resolveTy (h : c.Named) {n : String} {ty : Ty} (hty : c.resolveTy n position = .ok ty) :
    ty.Named := by
  rw [Checker.resolveTy, Registry.lookup] at hty
  split at hty
  · next hfound =>
    obtain rfl := Except.ok.inj hty
    exact h.types _ (List.mem_of_find?_eq_some hfound)
  · cases hty

/-- A type that is written or left out: if it is written, its members have names. -/
theorem resolveTys (h : c.Named) {typeName : Option String} {declared : Option Ty}
    (hd : typeName.mapM (c.resolveTy · position) = .ok declared) : ∀ ty ∈ declared, ty.Named := by
  cases typeName with
  | none =>
    obtain rfl := Except.ok.inj hd
    exact fun ty hty => nomatch hty
  | some n =>
    change (c.resolveTy n position >>= fun ty => .ok (some ty)) = .ok _ at hd
    obtain ⟨found, hfound, hd⟩ := ok_of_bind hd
    obtain rfl := Except.ok.inj hd
    intro ty hty
    obtain rfl := Option.some.inj hty
    exact h.resolveTy hfound

theorem ofRegistry {registry : Registry} (h : ∀ ty ∈ registry.types, ty.Named) :
    (Checker.ofRegistry registry).Named := by
  -- there is only the root
  have hget : ∀ {id scope}, (Checker.ofRegistry registry).scopes.get? id = some scope →
      scope = .ofLists none [] [((Signature.print.name, Signature.print.arity), .print)] := by
    intro id scope hscope
    cases id with
    | zero => exact (Option.some.inj hscope).symm
    | succ id => cases hscope
  refine ⟨fun hscope b hb => ?_, fun hscope f hf => ?_, h⟩
  · obtain rfl := hget hscope
    cases hb
  · obtain rfl := hget hscope
    obtain rfl := List.mem_singleton.mp hf
    exact ⟨rfl, Signature.named_print⟩

theorem enter (h : c.Named) : c.enter.Named := by
  have hget : ∀ {id scope}, (c.scopes.child c.scope).get? id = some scope →
      c.scopes.get? id = some scope ∨ scope = .empty (some c.scope) := by
    intro id scope hscope
    rw [Scopes.get?_child] at hscope
    split at hscope
    · exact .inr (Option.some.inj hscope).symm
    · exact .inl hscope
  refine ⟨fun hscope b hb => ?_, fun hscope f hf => ?_, h.types⟩
  · rcases hget hscope with hold | rfl
    · exact h.bound hold b hb
    · cases hb
  · rcases hget hscope with hold | rfl
    · exact h.functions hold f hf
    · cases hf

/-- A change of one scope keeps what all others know. -/
theorem modify (h : c.Named) {home : Nat}
    {change : Scope Variable Signature → Scope Variable Signature}
    (hbound : ∀ scope, ∀ b ∈ (change scope).bindings,
      b ∈ scope.bindings ∨ b.2.name = b.1 ∧ b.2.Named)
    (hfunctions : ∀ scope, ∀ f ∈ (change scope).functions,
      f ∈ scope.functions ∨ f.2.name = f.1.1 ∧ f.2.Named) :
    Checker.Named { c with scopes := ⟨c.scopes.scopes.modify home change⟩ } := by
  have hget : ∀ {id scope},
      (⟨c.scopes.scopes.modify home change⟩ : Scopes _ _).get? id = some scope →
      ∃ old, c.scopes.get? id = some old ∧ (scope = old ∨ scope = change old) := by
    intro id scope hscope
    change (c.scopes.scopes.modify home change)[id]? = some scope at hscope
    rw [Array.getElem?_modify] at hscope
    split at hscope
    · obtain ⟨old, hold, rfl⟩ := Option.map_eq_some_iff.mp hscope
      exact ⟨old, hold, .inr rfl⟩
    · exact ⟨scope, hscope, .inl rfl⟩
  refine ⟨fun hscope b hb => ?_, fun hscope f hf => ?_, h.types⟩
  · obtain ⟨old, hold, rfl | rfl⟩ := hget hscope
    · exact h.bound hold b hb
    · exact (hbound old b hb).elim (h.bound hold b) id
  · obtain ⟨old, hold, rfl | rfl⟩ := hget hscope
    · exact h.functions hold f hf
    · exact (hfunctions old f hf).elim (h.functions hold f) id

/-- A new variable with a name leaves all that is known with names, in whatever scope it is. -/
theorem addVariable (h : c.Named) {home : Nat} {v : Variable} {scopes : Scopes Variable Signature}
    (hv : v.Named) (hd : c.scopes.defineVariable home v.name v position = .ok scopes) :
    Checker.Named { c with scopes := scopes } := by
  rw [Scopes.defineVariable] at hd
  split at hd
  · cases hd
  · obtain rfl := Except.ok.inj hd
    refine h.modify (fun scope b hb => ?_) fun scope f hf => .inl hf
    rw [Scope.bindings_addVariable] at hb
    rcases List.mem_append.mp hb with hb | hb
    · exact .inl hb
    · obtain rfl := List.mem_singleton.mp hb
      exact .inr ⟨rfl, hv⟩

theorem addFunction (h : c.Named) {home : Nat} {f : Signature} {scopes : Scopes Variable Signature}
    (hf : f.Named) (hd : c.scopes.defineFunction home f.name f.arity f position = .ok scopes) :
    Checker.Named { c with scopes := scopes } := by
  rw [Scopes.defineFunction] at hd
  split at hd
  · cases hd
  · obtain rfl := Except.ok.inj hd
    refine h.modify (fun scope b hb => .inl hb) fun scope g hg => ?_
    rw [Scope.functions_addFunction] at hg
    rcases List.mem_append.mp hg with hg | hg
    · exact .inl hg
    · obtain rfl := List.mem_singleton.mp hg
      exact .inr ⟨rfl, hf⟩

theorem declare (h : c.Named) {v : Variable} (hv : v.Named)
    (hd : c.declare v position = .ok next) : next.Named := by
  obtain ⟨scopes, hs, hnext⟩ := ok_of_bind hd
  obtain rfl := Except.ok.inj hnext
  exact h.addVariable hv hs

theorem declareFunction (h : c.Named) {f : Signature} (hf : f.Named)
    (hd : c.declareFunction f position = .ok next) : next.Named := by
  obtain ⟨scopes, hs, hnext⟩ := ok_of_bind hd
  obtain rfl := Except.ok.inj hnext
  exact h.addFunction hf hs

/-- A checker has names for all that it knows if the host has names for all that it supplies. -/
theorem ofHost {registry : Registry} {types : List (String × Ty)} {functions : List Signature}
    (hregistry : ∀ ty ∈ registry.types, ty.Named) (htypes : ∀ v ∈ types, v.2.Named)
    (hfunctions : ∀ f ∈ functions, f.Named)
    (h : Checker.ofHost registry types functions = .ok c) : c.Named := by
  obtain ⟨mid, hmid, hlast⟩ := ok_of_bind h
  have hvariables : mid.Named := foldlM_ok [] (P := fun _ c => c.Named)
    (fun _ v hv s s' hs hd => by
      obtain ⟨scopes, hscopes, hnext⟩ := ok_of_bind hd
      obtain rfl := Except.ok.inj hnext
      exact hs.addVariable (v := .plain v.1 v.2) (Variable.named_plain (htypes v hv) v.1) hscopes)
    (ofRegistry hregistry) hmid
  exact foldlM_ok [] (P := fun _ c => c.Named)
    (fun _ f hf s s' hs hd => by
      obtain ⟨scopes, hscopes, hnext⟩ := ok_of_bind hd
      obtain rfl := Except.ok.inj hnext
      exact hs.addFunction (hfunctions f hf) hscopes)
    hvariables hlast

/-- The signature of a method is made of its own names and of types of the registry. -/
theorem of_signature (hc : c.Named) {m : Method} {f : Signature} (h : c.signature m = .ok f) :
    (∀ parameter ∈ f.parameters, parameter.Named) ∧ f.Named := by
  obtain ⟨parameters, hparameters, hrest⟩ := ok_of_bind h
  obtain ⟨result, hresult, hf⟩ := ok_of_bind hrest
  obtain rfl := Except.ok.inj hf
  refine ⟨fun parameter hparameter => ?_, .inl rfl, ?_⟩
  · obtain ⟨item, -, hitem⟩ := exists_of_mapM hparameters hparameter
    exact hc.resolveTy hitem
  · cases result with
    | none => exact Ty.named_of_mem_builtins (by simp [Ty.builtins])
    | some ty => exact hc.resolveTys hresult ty rfl

/-- The parameters of a method are declared one after the other. -/
theorem declareAll : ∀ {vs : List Variable} {c inner : Checker}, c.Named → (∀ v ∈ vs, v.Named) →
    c.declareAll position vs = .ok inner → inner.Named
  | [], c, inner, hc, _, h => by
    obtain rfl := Except.ok.inj h
    exact hc
  | v :: vs, c, inner, hc, hvs, h => by
    obtain ⟨next, hnext, hrest⟩ := ok_of_bind h
    obtain ⟨hv, hvs⟩ := List.forall_mem_cons.mp hvs
    exact declareAll (hc.declare hv hnext) hvs hrest

end Checker.Named

/-! ## Names in programs -/

/-- Whether the names among words are names. -/
def Word.AllNames (ws : List Word) : Prop :=
  ∀ n, (Kind.identifier, n) ∈ ws → Text.IsName n.toList

namespace Word

/-- Parts of what is written have names that are written there. -/
theorem AllNames.of_subset {ws vs : List Word} (h : AllNames ws) (hsub : vs ⊆ ws) : AllNames vs :=
  fun n hn => h n (hsub hn)

theorem AllNames.name {n : String} {ws : List Word} (h : AllNames ((Kind.identifier, n) :: ws)) :
    Text.IsName n.toList := h n (List.mem_cons_self ..)

theorem allNames_cons {w : Word} {ws : List Word} (h : AllNames (w :: ws)) : AllNames ws :=
  h.of_subset (List.subset_cons_self w ws)

theorem allNames_append {ws vs : List Word} : AllNames (ws ++ vs) ↔ AllNames ws ∧ AllNames vs := by
  simp only [AllNames, List.mem_append, or_imp, forall_and]

end Word

/-- Names that are left as they are come from the program, which has names of the language. -/
theorem Java.Renders.isPath {n javaName : String} (h : Java.Renders n javaName)
    (hn : Text.IsName n.toList) : Java.IsPath javaName := by
  rcases h with rfl | h
  · exact Java.isPath_of_isName hn
  · exact h

theorem Variable.Named.isPath {v : Variable} {n : String} (h : v.name = n ∧ v.Named)
    (hn : Text.IsName n.toList) : Java.IsPath v.javaName := by
  obtain ⟨rfl, hname, -⟩ := h
  exact hname.isPath hn

theorem Signature.Named.isPath {f : Signature} {n : String} (h : f.name = n ∧ f.Named)
    (hn : Text.IsName n.toList) : Java.IsPath f.javaName := by
  obtain ⟨rfl, hname, -⟩ := h
  exact hname.isPath hn

end TeachLang
