import TeachLang.Proofs.HiddenRunning
import TeachLang.Proofs.Hosts

/-!
# What a host supplies in vain

A host may supply a definition that a program does not mention, at any place among what else it
supplies. Then the program is checked to the same tree and verdict, and runs to the same end: with
the same result or diagnostic, the same printed text, and the same root but for that definition.

Whatever else is supplied behind it is supplied as before, since one definition is never in the way
of another (`HostStep`).
-/

namespace TeachLang

variable {V F S T U : Type} {hidden d : Definition}

/-! ## One definition more -/

namespace Scopes

variable {s t : Scopes V F}

/-- The root has no such definition. -/
def Lacks (s : Scopes V F) : Definition → Prop
  | .named name => s.variableIn? name root = none
  | .called (name, arity) => s.functionIn? name arity root = none

/-- What is missing in one and is not hidden is missing in the other. -/
theorem SameBut.lacks (h : SameBut hidden s t) (hd : d ≠ hidden) (hs : s.Lacks d) : t.Lacks d := by
  cases d with
  | named name => exact (h.variableIn?_eq hd root).symm.trans hs
  | called key => exact (h.functionIn?_eq hd root).symm.trans hs

/-- After a definition all is the same but for what is defined. -/
theorem sameBut_defineVariable {id : Nat} {name : String} {value : V} {position : Position}
    (h : s.defineVariable id name value position = .ok t) : SameBut (.named name) s t := by
  rw [defineVariable] at h
  split at h
  · cases h
  · obtain rfl := Except.ok.inj h
    exact (SameBut.refl s).modify_right id fun _ _ hab => hab.addHiddenVariable value

theorem sameBut_defineFunction {id : Nat} {name : String} {arity : Nat} {f : F}
    {position : Position} (h : s.defineFunction id name arity f position = .ok t) :
    SameBut (.called (name, arity)) s t := by
  rw [defineFunction] at h
  split at h
  · cases h
  · obtain rfl := Except.ok.inj h
    exact (SameBut.refl s).modify_right id fun _ _ hab => hab.addHiddenFunction f

/-- The root of what has no definitions but one function lacks all others. -/
theorem lacks_ofFunctions {key : String × Nat} {f : F} (h : d ≠ .called key) :
    (ofFunctions [(key, f)] : Scopes V F).Lacks d := by
  cases d with
  | named name => rfl
  | called other =>
    have hother : other ≠ key := fun heq => h (congrArg Definition.called heq)
    change functionIn? _ other.1 other.2 root = none
    rw [functionIn?_ofFunctions, List.lookup_cons, beq_eq_false_iff_ne.mpr hother]
    rfl

end Scopes

/-- If one answers, so does the other, with something related. -/
theorem AnswersAlike.exists_ok {R : S → T → Prop} {a : Except Diagnostic S}
    {b : Except Diagnostic T} {x : S} (h : AnswersAlike R a b) (ha : a = .ok x) :
    ∃ y, b = .ok y ∧ R x y := by
  cases h with
  | ok hxy =>
    obtain rfl := Except.ok.inj ha
    exact ⟨_, rfl, hxy⟩
  | error fault => cases ha

/-- A step that supplies an item: it adds the definition of the item, if that is lacking, and
nothing else. -/
structure HostStep (R : Definition → S → S → Prop) (lacks : S → Definition → Prop)
    (definition : T → Definition) (step : S → T → Except Diagnostic S) : Prop where
  /-- what is lacking can be supplied, and is all that is new then -/
  supplies : ∀ {s item}, lacks s (definition item) →
    ∃ s', step s item = .ok s' ∧ R (definition item) s s'
  /-- what else is there makes no difference -/
  alike : ∀ {d s s' item}, R d s s' → definition item ≠ d →
    AnswersAlike (R d) (step s item) (step s' item)
  /-- other definitions are lacking as before -/
  keeps : ∀ {d s s' item}, step s item = .ok s' → definition item ≠ d → lacks s d → lacks s' d

namespace HostStep

variable {R : Definition → S → S → Prop} {lacks : S → Definition → Prop}
  {definition : T → Definition} {step : S → T → Except Diagnostic S} {s s' last : S}
  {items before after : List T}

/-- What is supplied to both, and is not hidden, leaves them the same but for what is. -/
theorem foldlM_alike (h : HostStep R lacks definition step)
    (hitems : ∀ item ∈ items, definition item ≠ d) (hs : R d s s') :
    AnswersAlike (R d) (items.foldlM step s) (items.foldlM step s') := by
  induction items generalizing s s' with
  | nil => exact .ok hs
  | cons item items ih =>
    obtain ⟨hitem, hitems⟩ := List.forall_mem_cons.mp hitems
    rw [List.foldlM_cons, List.foldlM_cons]
    have hstep := h.alike hs hitem
    generalize step s item = first at hstep ⊢
    generalize step s' item = second at hstep ⊢
    cases hstep with
    | ok hnext => exact ih hitems hnext
    | error fault => exact .error fault

/-- What is missing is still missing after other things were supplied. -/
theorem foldlM_keeps (h : HostStep R lacks definition step)
    (hitems : ∀ item ∈ items, definition item ≠ d) (hs : lacks s d)
    (hlast : items.foldlM step s = .ok last) : lacks last d :=
  foldlM_ok [] (P := fun _ s => lacks s d)
    (fun _ item hitem _ _ hs hstep => h.keeps hstep (hitems item hitem) hs) hs hlast

/-- One item more can be supplied among others, if it is lacking and none of them is another of its
kind. -/
theorem insert (h : HostStep R lacks definition step) (extra : T)
    (hothers : ∀ item ∈ before ++ after, definition item ≠ definition extra)
    (hs : lacks s (definition extra)) (hlast : (before ++ after).foldlM step s = .ok last) :
    ∃ last', (before ++ extra :: after).foldlM step s = .ok last' ∧
      R (definition extra) last last' := by
  obtain ⟨hbefore, hafter⟩ := List.forall_mem_append.mp hothers
  rw [List.foldlM_append] at hlast ⊢
  obtain ⟨mid, hmid, hrest⟩ := ok_of_bind hlast
  obtain ⟨mid', hextra, hR⟩ := h.supplies (h.foldlM_keeps hbefore hs hmid)
  obtain ⟨last', hlast', hR'⟩ := (h.foldlM_alike hafter hR).exists_ok hrest
  refine ⟨last', ?_, hR'⟩
  rw [hmid]
  exact (congrArg (· >>= fun s => after.foldlM step s) hextra).trans hlast'

variable {other : U → Definition} {step' : S → U → Except Diagnostic S} {front back : List U}

/-- The same before others of another kind are supplied. -/
theorem insert_first (h : HostStep R lacks definition step) (h' : HostStep R lacks other step')
    (extra : T)
    (hothers : ∀ item ∈ before ++ after, definition item ≠ definition extra)
    (hbehind : ∀ item ∈ back, other item ≠ definition extra) (hs : lacks s (definition extra))
    (hlast : ((before ++ after).foldlM step s >>= fun s => back.foldlM step' s) = .ok last) :
    ∃ last', ((before ++ extra :: after).foldlM step s >>= fun s => back.foldlM step' s) =
      .ok last' ∧ R (definition extra) last last' := by
  obtain ⟨mid, hmid, hrest⟩ := ok_of_bind hlast
  obtain ⟨mid', hmid', hR⟩ := h.insert extra hothers hs hmid
  obtain ⟨last', hlast', hR'⟩ := (h'.foldlM_alike hbehind hR).exists_ok hrest
  exact ⟨last', (congrArg (· >>= fun s => back.foldlM step' s) hmid').trans hlast', hR'⟩

/-- The same behind others of another kind. -/
theorem insert_second (h : HostStep R lacks definition step) (h' : HostStep R lacks other step')
    (more : U)
    (hothers : ∀ item ∈ front ++ back, other item ≠ other more)
    (hahead : ∀ item ∈ items, definition item ≠ other more) (hs : lacks s (other more))
    (hlast : (items.foldlM step s >>= fun s => (front ++ back).foldlM step' s) = .ok last) :
    ∃ last', (items.foldlM step s >>= fun s => (front ++ more :: back).foldlM step' s) =
      .ok last' ∧ R (other more) last last' := by
  obtain ⟨mid, hmid, hrest⟩ := ok_of_bind hlast
  obtain ⟨last', hlast', hR⟩ := h'.insert more hothers (h.foldlM_keeps hahead hs hmid) hrest
  refine ⟨last', ?_, hR⟩
  rw [hmid]
  exact hlast'

end HostStep

/-! ## Checkers and machines with a definition more -/

/-- A checker is supplied with variables one by one. -/
theorem Checker.hostStep_variable : HostStep Checker.SameBut (fun c d => c.scopes.Lacks d)
    (fun v : String × Ty => .named v.1) (fun c v => c.defineVariable v.1 v.2) where
  supplies {c v} hlacks := by
    obtain ⟨t, ht⟩ : ∃ t,
        c.scopes.defineVariable Scopes.root v.1 (.plain v.1 v.2) .nowhere = .ok t :=
      ⟨_, Scopes.defineVariable_eq hlacks _ _⟩
    refine ⟨{ c with scopes := t }, ?_, rfl, Scopes.sameBut_defineVariable ht, rfl⟩
    rw [defineVariable, ht]
    rfl
  alike h hd := h.withScopes (h.scopes.defineVariable hd _ _ _)
  keeps h hd hlacks := by
    obtain ⟨t, ht, hnext⟩ := ok_of_bind h
    obtain rfl := Except.ok.inj hnext
    exact (Scopes.sameBut_defineVariable ht).lacks (Ne.symm hd) hlacks

theorem Checker.hostStep_function : HostStep Checker.SameBut (fun c d => c.scopes.Lacks d)
    (fun f : Signature => .called f.key) Checker.defineFunction where
  supplies {c f} hlacks := by
    obtain ⟨t, ht⟩ : ∃ t, c.scopes.defineFunction Scopes.root f.name f.arity f .nowhere = .ok t :=
      ⟨_, Scopes.defineFunction_eq hlacks _ _⟩
    refine ⟨{ c with scopes := t }, ?_, rfl, Scopes.sameBut_defineFunction ht, rfl⟩
    rw [defineFunction, ht]
    rfl
  alike h hd := h.withScopes (h.scopes.defineFunction hd _ _ _)
  keeps h hd hlacks := by
    obtain ⟨t, ht, hnext⟩ := ok_of_bind h
    obtain rfl := Except.ok.inj hnext
    exact (Scopes.sameBut_defineFunction ht).lacks (Ne.symm hd) hlacks

/-- The root of a machine lacks a definition, and no method mentions it. -/
def Machine.Lacks (m : Machine) (d : Definition) : Prop :=
  m.scopes.Lacks d ∧ m.scopes.All (fun _ => True) (Callable.Ignores d)

/-- Machines whose scopes are changed alike by a change of the root. -/
theorem Machine.hostStep (definition : T → Definition)
    (change : T → Scopes Value Callable → Except Diagnostic (Scopes Value Callable))
    (hsupplies : ∀ {s item}, s.Lacks (definition item) → ∃ t, change item s = .ok t)
    (hadds : ∀ {s t item}, change item s = .ok t → Scopes.SameBut (definition item) s t)
    (halike : ∀ {d s t item}, Scopes.SameBut d s t → definition item ≠ d →
      AnswersAlike (Scopes.SameBut d) (change item s) (change item t))
    (hignores : ∀ item {d s}, s.All (fun _ => True) (Callable.Ignores d) →
      Answers (Scopes.All (fun _ => True) (Callable.Ignores d)) (fun _ => True) (change item s)) :
    HostStep Machine.SameBut Machine.Lacks definition
      fun m item => m.changeScopes fun scopes _ => change item scopes where
  supplies {m item} hlacks := by
    obtain ⟨t, ht⟩ := hsupplies hlacks.1
    refine ⟨{ m with scopes := t }, ?_, hadds ht, rfl, rfl, hlacks.2⟩
    rw [changeScopes, ht]
  alike h hd := h.changeScopes (fun _ => halike h.scopes hd) fun _ => hignores _ h.ignores
  keeps {d m m' item} h hd hlacks := by
    rw [changeScopes] at h
    have hall := hignores item hlacks.2
    cases ht : change item m.scopes with
    | error fault =>
      rw [ht] at h
      cases h
    | ok t =>
      rw [ht] at h hall
      obtain rfl := Except.ok.inj h
      exact ⟨(hadds ht).lacks (Ne.symm hd) hlacks.1, hall⟩

theorem Machine.hostStep_variable : HostStep Machine.SameBut Machine.Lacks
    (fun v : String × Value => .named v.1) (fun m v => m.defineVariable v.1 v.2) :=
  hostStep (fun v : String × Value => .named v.1)
    (fun v scopes => scopes.defineVariable Scopes.root v.1 v.2 .nowhere)
    (fun hlacks => ⟨_, Scopes.defineVariable_eq hlacks _ _⟩) Scopes.sameBut_defineVariable
    (fun h hd => h.defineVariable hd _ _ _)
    fun _ _ _ h => h.defineVariable (P := fun _ => True) _ _ trivial trivial

theorem Machine.hostStep_function : HostStep Machine.SameBut Machine.Lacks
    (fun f : (String × Nat) × Native => .called f.1)
    (fun m f => m.defineFunction f.1.1 f.1.2 f.2) :=
  hostStep (fun f : (String × Nat) × Native => .called f.1)
    (fun f scopes => scopes.defineFunction Scopes.root f.1.1 f.1.2 (.native f.2) .nowhere)
    (fun hlacks => ⟨_, Scopes.defineFunction_eq hlacks _ _⟩) Scopes.sameBut_defineFunction
    (fun h hd => h.defineFunction hd _ _ _)
    fun _ _ _ h => h.defineFunction (P := fun _ => True) _ _ _ trivial trivial

/-! ## Hosts -/

/-- Machines on which the same was printed, and whose roots have the same definitions but for
one. -/
structure Machine.SameRootBut (hidden : Definition) (m n : Machine) : Prop where
  /-- what was printed -/
  printed : m.printed = n.printed
  /-- the values of the other variables -/
  values : ∀ name, .named name ≠ hidden →
    m.scopes.variableIn? name Scopes.root = n.scopes.variableIn? name Scopes.root
  /-- the other functions -/
  functions : ∀ name arity, .called (name, arity) ≠ hidden →
    m.scopes.functionIn? name arity Scopes.root = n.scopes.functionIn? name arity Scopes.root

theorem Machine.SameBut.sameRootBut {m n : Machine} (h : m.SameBut hidden n) :
    SameRootBut hidden m n :=
  ⟨congrArg Printer.text h.printer, fun _ hname => h.scopes.variableIn?_eq hname _,
    fun _ _ hkey => h.scopes.functionIn?_eq hkey _⟩

/-- A program is checked by two checkers to the same tree and verdict. On two machines its runs end
with the same result, with the same diagnostic or both for lack of fuel, and leave them the same but
for a definition of the root. -/
structure Program.SameOn (p : Program) (host : Host) (hidden : Definition) (c d : Checker)
    (m n : Machine) : Prop where
  /-- the tree and the verdict -/
  checked : (p.check c).2 = (p.check d).2
  /-- how runs end -/
  run : ∀ fuel, Outcome.Alike (Machine.SameRootBut hidden) (Run.program host fuel p m)
    (Run.program host fuel p n)

theorem Program.sameOn {p : Program} (hp : hidden ∉ p.mentions) {c d : Checker} {m n : Machine}
    (hcd : Checker.SameBut hidden c d) (hmn : Machine.SameBut hidden m n) (host : Host) :
    p.SameOn host hidden c d m n := by
  refine ⟨(p.check_sameBut hcd hp).checked, fun fuel => ?_⟩
  have hrun := Run.program_sameBut host fuel hp m n hmn
  generalize Run.program host fuel p m = first at hrun ⊢
  generalize Run.program host fuel p n = second at hrun ⊢
  cases hrun with
  | done hlast => exact .done hlast.sameRootBut
  | failed hlast => exact .failed hlast.sameRootBut
  | exhausted => exact .exhausted

section Supplied

variable {registry : Registry} {printer : Printer} {types types' : List (String × Ty)}
  {functions functions' : List Signature} {values values' : List (String × Value)}
  {natives natives' : List ((String × Nat) × Native)} {c : Checker} {m : Machine}

/-- One variable more, supplied anywhere among the others, can be told from nothing else. -/
theorem Checker.ofHost_variable (hc : ofHost registry (types ++ types') functions = .ok c)
    {name : String} (hname : name ∉ (types ++ types').map Prod.fst) (ty : Ty) :
    ∃ d, ofHost registry (types ++ (name, ty) :: types') functions = .ok d ∧
      SameBut (.named name) c d :=
  hostStep_variable.insert_first hostStep_function (name, ty)
    (fun v hv heq => hname (List.mem_map.mpr ⟨v, hv, Definition.named.inj heq⟩)) (fun _ _ => nofun)
    (Scopes.lacks_ofFunctions nofun) hc

/-- The same holds of a function more. -/
theorem Checker.ofHost_function (hc : ofHost registry types (functions ++ functions') = .ok c)
    {f : Signature} (hprint : f.key ≠ Signature.print.key)
    (hf : f.key ∉ (functions ++ functions').map Signature.key) :
    ∃ d, ofHost registry types (functions ++ f :: functions') = .ok d ∧
      SameBut (.called f.key) c d :=
  hostStep_variable.insert_second hostStep_function f
    (fun g hg heq => hf (List.mem_map.mpr ⟨g, hg, Definition.called.inj heq⟩)) (fun _ _ => nofun)
    (Scopes.lacks_ofFunctions fun heq => hprint (Definition.called.inj heq)) hc

theorem Machine.lacks_ofPrinter (h : d ≠ .called Signature.print.key) :
    (ofPrinter printer).Lacks d :=
  ⟨Scopes.lacks_ofFunctions h, Scopes.All.ofFunctions (List.forall_mem_singleton.mpr trivial)⟩

theorem Machine.ofHost_variable (hm : ofHost printer (values ++ values') natives = .ok m)
    {name : String} (hname : name ∉ (values ++ values').map Prod.fst) (value : Value) :
    ∃ n, ofHost printer (values ++ (name, value) :: values') natives = .ok n ∧
      SameBut (.named name) m n :=
  hostStep_variable.insert_first hostStep_function (name, value)
    (fun v hv heq => hname (List.mem_map.mpr ⟨v, hv, Definition.named.inj heq⟩)) (fun _ _ => nofun)
    (lacks_ofPrinter nofun) hm

theorem Machine.ofHost_function (hm : ofHost printer values (natives ++ natives') = .ok m)
    {key : String × Nat} (hprint : key ≠ Signature.print.key)
    (hkey : key ∉ (natives ++ natives').map Prod.fst) (answer : Native) :
    ∃ n, ofHost printer values (natives ++ (key, answer) :: natives') = .ok n ∧
      SameBut (.called key) m n :=
  hostStep_variable.insert_second hostStep_function (key, answer)
    (fun f hf heq => hkey (List.mem_map.mpr ⟨f, hf, Definition.called.inj heq⟩)) (fun _ _ => nofun)
    (lacks_ofPrinter fun heq => hprint (Definition.called.inj heq)) hm

/-- What a program does not mention makes no difference to it. A host that supplies something can
supply a variable or a function more, in whatever place among the others, and the program is checked
and runs to the same end as without. -/
theorem Program.unmentioned_invisible (p : Program) (host : Host)
    (hc : Checker.ofHost registry (types ++ types') (functions ++ functions') = .ok c)
    (hm : Machine.ofHost printer (values ++ values') (natives ++ natives') = .ok m) :
    (∀ name ty value, .named name ∉ p.mentions → name ∉ (types ++ types').map Prod.fst →
      name ∉ (values ++ values').map Prod.fst →
      ∃ d n, Checker.ofHost registry (types ++ (name, ty) :: types') (functions ++ functions') =
          .ok d ∧
        Machine.ofHost printer (values ++ (name, value) :: values') (natives ++ natives') = .ok n ∧
        p.SameOn host (.named name) c d m n) ∧
    (∀ f answer, .called f.key ∉ p.mentions → f.key ≠ Signature.print.key →
      f.key ∉ (functions ++ functions').map Signature.key →
      f.key ∉ (natives ++ natives').map Prod.fst →
      ∃ d n, Checker.ofHost registry (types ++ types') (functions ++ f :: functions') = .ok d ∧
        Machine.ofHost printer (values ++ values') (natives ++ (f.key, answer) :: natives') =
          .ok n ∧
        p.SameOn host (.called f.key) c d m n) := by
  constructor
  · intro name ty value hp htypes hvalues
    obtain ⟨d, hd, hcd⟩ := Checker.ofHost_variable hc htypes ty
    obtain ⟨n, hn, hmn⟩ := Machine.ofHost_variable hm hvalues value
    exact ⟨d, n, hd, hn, Program.sameOn hp hcd hmn host⟩
  · intro f answer hp hprint hfunctions hnatives
    obtain ⟨d, hd, hcd⟩ := Checker.ofHost_function hc hprint hfunctions
    obtain ⟨n, hn, hmn⟩ := Machine.ofHost_function hm hprint hnatives answer
    exact ⟨d, n, hd, hn, Program.sameOn hp hcd hmn host⟩

end Supplied

/-- A program that prints what a host supplies, and gives back what a function of the host makes of
it. -/
def Program.borrowing : Program where
  fields := [⟨"total", "Integer", some (.name "base" none default), none, default⟩]
  methods := [⟨"main", [], some "Integer",
    [.expression (.call Signature.print.name [.name "total" none default] none default) default,
      .returns (.call "twice" [.name "total" none default] none default) default], none, default⟩]
  span := default

/-- The signature of a function with whole numbers as parameters and result. -/
def Signature.counting (name : String) (arity : Nat) : Signature :=
  ⟨name, name, List.replicate arity .integer, .integer⟩

/-- A function that adds a number to itself. -/
def Native.twice : Native
  | [.atom _ (.integer n)] => .ok (.ofLiteral (.integer (n + n)))
  | _ => .error ⟨.undefinedName "twice", .nowhere⟩

/-- A variable between two others, and a function that has its name in common with one that the
program calls. -/
theorem Program.borrowing_ignores_spare : ∃ c m d n d' n',
    Checker.ofHost .builtin [("base", .integer), ("rate", .decimal)] [.counting "twice" 1] = .ok c ∧
    Machine.ofHost .empty [("rate", .ofLiteral .nil), ("base", .ofLiteral (.integer 21))]
      [(("twice", 1), .twice)] = .ok m ∧
    Checker.ofHost .builtin [("base", .integer), ("spare", .string), ("rate", .decimal)]
      [.counting "twice" 1] = .ok d ∧
    Machine.ofHost .empty
      [("rate", .ofLiteral .nil), ("base", .ofLiteral (.integer 21)), ("spare", .ofLiteral .nil)]
      [(("twice", 1), .twice)] = .ok n ∧
    borrowing.SameOn (fun _ value _ => .ok value) (.named "spare") c d m n ∧
    Checker.ofHost .builtin [("base", .integer), ("rate", .decimal)]
      [.counting "twice" 2, .counting "twice" 1] = .ok d' ∧
    Machine.ofHost .empty [("rate", .ofLiteral .nil), ("base", .ofLiteral (.integer 21))]
      [(("twice", 1), .twice), (("twice", 2), .twice)] = .ok n' ∧
    borrowing.SameOn (fun _ value _ => .ok value) (.called ("twice", 2)) c d' m n' ∧
    (borrowing.check d').2.verdict = .ok () ∧
    ∃ last, Run.program (fun _ value _ => .ok value) 3 borrowing n' =
      .done (.ofLiteral (.integer 42)) last ∧ last.printed = "21\n" := by
  obtain ⟨c, hc⟩ : ∃ c, Checker.ofHost .builtin ([("base", .integer)] ++ [("rate", .decimal)])
      ([] ++ [.counting "twice" 1]) = .ok c := ⟨_, rfl⟩
  obtain ⟨m, hm⟩ : ∃ m, Machine.ofHost .empty
      ([("rate", .ofLiteral .nil), ("base", .ofLiteral (.integer 21))] ++ [])
      ([(("twice", 1), .twice)] ++ []) = .ok m := ⟨_, rfl⟩
  obtain ⟨hvariable, hfunction⟩ :=
    unmentioned_invisible borrowing (fun _ value _ => .ok value) hc hm
  obtain ⟨d, n, hd, hn, hspare⟩ := hvariable "spare" .string (.ofLiteral .nil)
    (by decide) (by decide) (by decide)
  obtain ⟨d', n', hd', hn', hother⟩ := hfunction (.counting "twice" 2) .twice
    (by decide) (by decide) (by decide) (by decide)
  refine ⟨c, m, d, n, d', n', hc, hm, hd, hn, hspare, hd', hn', hother, ?_, ?_⟩
  · obtain rfl := Except.ok.inj hd'
    rfl
  · obtain rfl := Except.ok.inj hn'
    exact ⟨_, rfl, rfl⟩

end TeachLang
