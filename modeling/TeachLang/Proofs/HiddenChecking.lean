import TeachLang.Proofs.Checked
import TeachLang.Proofs.Mentions

/-!
# Checking what does not mention a definition

Two checkers may differ in one definition that is hidden. What does not mention it is checked to the
same tree and verdict by both, and afterwards they still differ in nothing else (`CheckedAlike`).
-/

namespace TeachLang

variable {T U R S : Type} {hidden : Definition}

/-! ## Checkers -/

/-- Checkers that know the same but for a hidden definition. -/
structure Checker.SameBut (hidden : Definition) (c d : Checker) : Prop where
  /-- they know the same types -/
  registry : c.registry = d.registry
  /-- they have the same other definitions -/
  scopes : Scopes.SameBut hidden c.scopes d.scopes
  /-- they stand in the same scope -/
  scope : c.scope = d.scope

namespace Checker.SameBut

variable {c d : Checker} {name : String} {arity : Nat}

theorem resolveTy_eq (h : SameBut hidden c d) : c.resolveTy = d.resolveTy := by
  funext name position
  rw [resolveTy, resolveTy, h.registry]

theorem lookupVariable_eq (h : SameBut hidden c d) (hname : .named name ≠ hidden)
    (position : Position) : c.lookupVariable name position = d.lookupVariable name position := by
  rw [lookupVariable, lookupVariable, h.scope]
  exact h.scopes.lookupVariable_eq hname _ _

theorem lookupFunction_eq (h : SameBut hidden c d) (hkey : .called (name, arity) ≠ hidden)
    (position : Position) :
    c.lookupFunction name arity position = d.lookupFunction name arity position := by
  rw [lookupFunction, lookupFunction, h.scope]
  exact h.scopes.lookupFunction_eq hkey _ _

/-- Checkers whose scopes are changed alike. -/
theorem withScopes (h : SameBut hidden c d) {s t : Except Diagnostic (Scopes Variable Signature)}
    (hst : AnswersAlike (Scopes.SameBut hidden) s t) :
    AnswersAlike (SameBut hidden) (do return { c with scopes := ← s })
      (do return { d with scopes := ← t }) := by
  cases hst with
  | ok hscopes => exact .ok ⟨h.registry, hscopes, h.scope⟩
  | error fault => exact .error fault

theorem declare (h : SameBut hidden c d) {v : Variable} (hname : .named v.name ≠ hidden)
    (position : Position) :
    AnswersAlike (SameBut hidden) (c.declare v position) (d.declare v position) := by
  rw [Checker.declare, Checker.declare]
  refine h.withScopes ?_
  rw [h.scope]
  exact h.scopes.defineVariable hname _ v position

theorem declareFunction (h : SameBut hidden c d) {f : Signature}
    (hkey : .called (f.name, f.arity) ≠ hidden) (position : Position) :
    AnswersAlike (SameBut hidden) (c.declareFunction f position)
      (d.declareFunction f position) := by
  rw [Checker.declareFunction, Checker.declareFunction]
  refine h.withScopes ?_
  rw [h.scope]
  exact h.scopes.defineFunction hkey _ f position

theorem enter (h : SameBut hidden c d) : SameBut hidden c.enter d.enter := by
  refine ⟨h.registry, ?_, h.scopes.depth_eq⟩
  rw [Checker.enter, Checker.enter, h.scope]
  exact h.scopes.child _

theorem declareAll (h : SameBut hidden c d) (position : Position) {vs : List Variable}
    (hvs : ∀ v ∈ vs, .named v.name ≠ hidden) :
    AnswersAlike (SameBut hidden) (c.declareAll position vs) (d.declareAll position vs) := by
  induction vs generalizing c d with
  | nil => exact .ok h
  | cons v vs ih =>
    obtain ⟨hv, hvs⟩ := List.forall_mem_cons.mp hvs
    rw [Checker.declareAll, Checker.declareAll]
    have hdeclare := h.declare hv position
    generalize c.declare v position = first at hdeclare ⊢
    generalize d.declare v position = second at hdeclare ⊢
    cases hdeclare with
    | ok hnext => exact ih hnext hvs
    | error fault => exact .error fault

end Checker.SameBut

/-! ## Checking -/

/-- Only what is done with a good verdict matters. -/
theorem Checked.andThen_congr {part : Checked T R} {stopped : T → U}
    {next next' : T → R → Checked U S}
    (h : ∀ found, part.verdict = .ok found → next part.tree found = next' part.tree found) :
    part.andThen stopped next = part.andThen stopped next' := by
  rw [Checked.andThen, Checked.andThen]
  split
  · next found hfound => exact h found hfound
  · rfl

namespace Expr

variable {c d : Checker}

/-- There are as many types as arguments. -/
theorem length_of_checkArguments : ∀ {es : List Expr} {tys : List (Position × Ty)},
    (checkArguments c es).verdict = .ok tys → tys.length = es.length
  | [], _, h => by
    rw [checkArguments] at h
    cases h
    rfl
  | e :: es, _, h => by
    obtain ⟨ty, others, -, hothers, rfl, -⟩ := checkArguments_cons_ok h
    exact congrArg (· + 1) (length_of_checkArguments hothers)

mutual

/-- An expression that does not mention what is hidden is checked to the same end. -/
theorem check_sameBut (h : Checker.SameBut hidden c d) : ∀ {e : Expr}, hidden ∉ e.mentions →
    e.check c = e.check d
  | literal .., _ => by rw [check, check]
  | group inner _ _, he => by
    rw [check, check, check_sameBut h (e := inner) he]
  | binary _ left right _ _, he => by
    rw [mentions, List.mem_append, not_or] at he
    rw [check, check, check_sameBut h he.1, check_sameBut h he.2]
  | name n _ span, he => by
    rw [mentions, List.mem_singleton] at he
    rw [check, check, h.lookupVariable_eq (Ne.symm he)]
  | member receiver _ _ _, he => by
    rw [check, check, check_sameBut h (e := receiver) he]
  | call n arguments _ _, he => by
    rw [mentions, List.mem_cons, not_or] at he
    rw [check, check, checkArguments_sameBut h he.2]
    refine Checked.andThen_congr fun tys htys => ?_
    rw [length_of_checkArguments htys, h.lookupFunction_eq (Ne.symm he.1)]
  | methodCall receiver _ arguments _ _, he => by
    rw [mentions, List.mem_append, not_or] at he
    rw [check, check, checkArguments_sameBut h he.2, check_sameBut h he.1]

theorem checkArguments_sameBut (h : Checker.SameBut hidden c d) : ∀ {es : List Expr},
    hidden ∉ allMentions es → checkArguments c es = checkArguments d es
  | [], _ => by rw [checkArguments, checkArguments]
  | e :: es, hes => by
    rw [allMentions, List.mem_append, not_or] at hes
    rw [checkArguments, checkArguments, check_sameBut h hes.1, checkArguments_sameBut h hes.2]

end

theorem checkAs_sameBut (h : Checker.SameBut hidden c d) (required : Ty) {e : Expr}
    (he : hidden ∉ e.mentions) : e.checkAs c required = e.checkAs d required := by
  rw [checkAs, checkAs, check_sameBut h he]

end Expr

/-- Checking comes to the same tree and verdict, and the checkers behind it know the same but for a
hidden definition. -/
structure CheckedAlike (hidden : Definition) (a b : Checker × Checked T Unit) : Prop where
  /-- the checkers -/
  checker : Checker.SameBut hidden a.1 b.1
  /-- the tree and the verdict -/
  checked : a.2 = b.2

section Checking

variable {c d : Checker}

theorem Checker.SameBut.checkVariable (h : SameBut hidden c d) {name : String}
    (hname : .named name ≠ hidden) (typeName : Option String) {value : Option Expr}
    (hvalue : hidden ∉ Expr.optionMentions value) (binding : Option Variable) (position : Position)
    (node : Option Expr → Option Variable → T) :
    CheckedAlike hidden (c.checkVariable name typeName value binding position node)
      (d.checkVariable name typeName value binding position node) := by
  have hchecked : c.checkValue value = d.checkValue value := by
    cases value with
    | none => rfl
    | some e => rw [checkValue, checkValue, Expr.check_sameBut h hvalue]
  rw [Checker.checkVariable, Checker.checkVariable, h.resolveTy_eq, hchecked]
  simp only
  split
  · exact ⟨h, rfl⟩
  · split
    · exact ⟨h, rfl⟩
    · split
      · exact ⟨h, rfl⟩
      · next ty _ =>
        have hdeclare := h.declare (v := .plain name ty) hname position
        generalize c.declare (.plain name ty) position = first at hdeclare ⊢
        generalize d.declare (.plain name ty) position = second at hdeclare ⊢
        cases hdeclare with
        | ok hnext => exact ⟨hnext, rfl⟩
        | error fault => exact ⟨h, rfl⟩

namespace Stmt

mutual

/-- A statement that does not mention what is hidden is checked to the same end. -/
theorem check_sameBut : ∀ {stmt : Stmt} {c d : Checker}, Checker.SameBut hidden c d →
    hidden ∉ stmt.mentions → CheckedAlike hidden (stmt.check c) (stmt.check d)
  | expression e _, _, _, h, hs => by
    rw [check, check, Expr.check_sameBut h (e := e) hs]
    split
    · exact ⟨h, rfl⟩
    · exact ⟨h, rfl⟩
  | declaration n typeName value binding span, _, _, h, hs => by
    rw [mentions, List.mem_cons, not_or] at hs
    rw [check, check]
    exact h.checkVariable (Ne.symm hs.1) typeName hs.2 binding span.start _
  | assignment target value _, _, _, h, hs => by
    rw [mentions, List.mem_append, not_or] at hs
    rw [check, check, Expr.check_sameBut h hs.1]
    simp only [Expr.checkAs_sameBut h _ hs.2]
    split
    · exact ⟨h, rfl⟩
    · exact ⟨h, rfl⟩
  | conditional condition thenBody elseBody _, _, _, h, hs => by
    rw [mentions, List.mem_append, List.mem_append, not_or, not_or] at hs
    rw [check, check, Expr.checkAs_sameBut h _ hs.1, (checkAll_sameBut h.enter hs.2.1).checked,
      (checkAll_sameBut h.enter hs.2.2).checked]
    exact ⟨h, rfl⟩
  | forEach n items body span, c, d, h, hs => by
    rw [mentions, List.mem_cons, List.mem_append, not_or, not_or] at hs
    rw [check, check, Expr.checkAs_sameBut h _ hs.2.1]
    refine ⟨h, ?_⟩
    simp only
    refine Checked.andThen_congr fun ty _ => ?_
    split
    · rfl
    · have hdeclare := h.enter.declare (v := .plain n .integer) (Ne.symm hs.1) span.start
      generalize c.enter.declare (.plain n .integer) span.start = first at hdeclare ⊢
      generalize d.enter.declare (.plain n .integer) span.start = second at hdeclare ⊢
      cases hdeclare with
      | ok hinner =>
        exact congrArg (Checked.within _) (checkAll_sameBut hinner hs.2.2).checked
      | error fault => rfl
  | whileLoop condition body _, _, _, h, hs => by
    rw [mentions, List.mem_append, not_or] at hs
    rw [check, check, Expr.checkAs_sameBut h _ hs.1, (checkAll_sameBut h.enter hs.2).checked]
    exact ⟨h, rfl⟩
  | returns value _, _, _, h, hs => by
    rw [check, check, Expr.check_sameBut h (e := value) hs]
    exact ⟨h, rfl⟩

theorem checkAll_sameBut : ∀ {stmts : List Stmt} {c d : Checker}, Checker.SameBut hidden c d →
    hidden ∉ allMentions stmts → CheckedAlike hidden (checkAll c stmts) (checkAll d stmts)
  | [], _, _, h, _ => ⟨h, rfl⟩
  | stmt :: stmts, _, _, h, hs => by
    rw [allMentions, List.mem_append, not_or] at hs
    have hfirst := check_sameBut h hs.1
    rw [checkAll, checkAll]
    simp only [hfirst.checked]
    split
    · exact ⟨hfirst.checker, rfl⟩
    · have hothers := checkAll_sameBut hfirst.checker hs.2
      exact ⟨hothers.checker, congrArg (Checked.within _) hothers.checked⟩

end

end Stmt

theorem Field.check_sameBut (h : Checker.SameBut hidden c d) {f : Field}
    (hf : hidden ∉ f.mentions) : CheckedAlike hidden (f.check c) (f.check d) := by
  rw [mentions, List.mem_cons, not_or] at hf
  exact h.checkVariable (Ne.symm hf.1) _ hf.2 _ _ _

/-- There are as many results as items. -/
theorem length_of_mapM {α β : Type} {f : α → Except Diagnostic β} {items : List α}
    {results : List β} (h : items.mapM f = .ok results) : results.length = items.length := by
  induction items generalizing results with
  | nil =>
    cases h
    rfl
  | cons item items ih =>
    rw [List.mapM_cons] at h
    obtain ⟨first, -, hrest⟩ := ok_of_bind h
    obtain ⟨others, hothers, hlast⟩ := ok_of_bind hrest
    obtain rfl := Except.ok.inj hlast
    exact congrArg (· + 1) (ih hothers)

namespace Method

/-- The variables that the parameters are have the names of these. -/
theorem name_parameterVariables {P : String → Prop} (m : Method) {f : Signature}
    (h : ∀ parameter ∈ m.parameters, P parameter.1) : ∀ v ∈ m.parameterVariables f, P v.name := by
  intro v hv
  rw [parameterVariables, ← List.map_uncurry_zip_eq_zipWith] at hv
  obtain ⟨⟨parameter, ty⟩, hmem, rfl⟩ := List.mem_map.mp hv
  exact h parameter (List.of_mem_zip hmem).1

theorem ne_of_mem_parameters {m : Method} (hm : hidden ∉ m.mentions) :
    ∀ parameter ∈ m.parameters, .named parameter.1 ≠ hidden := by
  rintro parameter hparameter rfl
  exact hm (List.mem_cons_of_mem _ (List.mem_append_left _ (List.mem_map_of_mem hparameter)))

theorem checkBody_sameBut (h : Checker.SameBut hidden c d) {m : Method} (hm : hidden ∉ m.mentions)
    (f : Signature) : m.checkBody c f = m.checkBody d f := by
  have hbody : hidden ∉ Stmt.allMentions m.body := fun hbody =>
    hm (List.mem_cons_of_mem _ (List.mem_append_right _ hbody))
  have hdeclare := h.enter.declareAll m.span.start
    (m.name_parameterVariables (f := f) (P := (.named · ≠ hidden)) (ne_of_mem_parameters hm))
  rw [checkBody, checkBody]
  generalize c.enter.declareAll m.span.start (m.parameterVariables f) = first at hdeclare ⊢
  generalize d.enter.declareAll m.span.start (m.parameterVariables f) = second at hdeclare ⊢
  cases hdeclare with
  | ok hinner => exact congrArg (Checked.within _) (Stmt.checkAll_sameBut hinner hbody).checked
  | error fault => rfl

/-- A method is declared under its name, with as many parameters as it has. -/
theorem key_of_signature {m : Method} {f : Signature} (h : c.signature m = .ok f) :
    (f.name, f.arity) = (m.name, m.parameters.length) := by
  obtain ⟨parameters, hparameters, hrest⟩ := ok_of_bind h
  obtain ⟨result, -, hf⟩ := ok_of_bind hrest
  obtain rfl := Except.ok.inj hf
  exact congrArg (m.name, ·) (length_of_mapM hparameters)

/-- A method that does not mention what is hidden is checked to the same end. -/
theorem check_sameBut (h : Checker.SameBut hidden c d) {m : Method} (hm : hidden ∉ m.mentions) :
    CheckedAlike hidden (m.check c) (m.check d) := by
  have hsignature : c.signature m = d.signature m := by
    rw [Checker.signature, Checker.signature, h.resolveTy_eq]
  rw [check, check, hsignature]
  cases hf : d.signature m with
  | error fault => exact ⟨h, rfl⟩
  | ok f =>
    have hkey : .called (f.name, f.arity) ≠ hidden := by
      rintro rfl
      rw [key_of_signature hf] at hm
      exact hm (List.mem_cons_self ..)
    have hdeclare := h.declareFunction hkey m.span.start
    simp only
    generalize c.declareFunction f m.span.start = first at hdeclare ⊢
    generalize d.declareFunction f m.span.start = second at hdeclare ⊢
    cases hdeclare with
    | ok hnext => exact ⟨hnext, checkBody_sameBut hnext (m := { m with callee := some f }) hm f⟩
    | error fault => exact ⟨h, rfl⟩

end Method

namespace Program

theorem checkEach_sameBut (check : Checker → T → Checker × Checked T Unit)
    {mentions : T → List Definition}
    (hcheck : ∀ {c d : Checker}, Checker.SameBut hidden c d → ∀ {item}, hidden ∉ mentions item →
      CheckedAlike hidden (check c item) (check d item)) (h : Checker.SameBut hidden c d)
    {items : List T} (hitems : hidden ∉ items.flatMap mentions) :
    CheckedAlike hidden (checkEach check c items) (checkEach check d items) := by
  induction items generalizing c d with
  | nil => exact ⟨h, rfl⟩
  | cons item items ih =>
    rw [List.flatMap_cons, List.mem_append, not_or] at hitems
    have hfirst := hcheck h hitems.1
    rw [checkEach, checkEach]
    simp only [hfirst.checked]
    split
    · exact ⟨hfirst.checker, rfl⟩
    · have hothers := ih hfirst.checker hitems.2
      exact ⟨hothers.checker, congrArg (Checked.within _) hothers.checked⟩

/-- A program that does not mention what is hidden is checked to the same end. -/
theorem check_sameBut (h : Checker.SameBut hidden c d) {p : Program} (hp : hidden ∉ p.mentions) :
    CheckedAlike hidden (p.check c) (p.check d) := by
  rw [mentions, List.mem_cons, List.mem_append, not_or, not_or] at hp
  have hfields := checkEach_sameBut Field.check Field.check_sameBut h hp.2.1
  rw [check, check]
  simp only [hfields.checked]
  split
  · exact ⟨hfields.checker, rfl⟩
  · have hmethods := checkEach_sameBut Method.check Method.check_sameBut
      hfields.checker hp.2.2
    simp only [hmethods.checked]
    split
    · exact ⟨hmethods.checker, rfl⟩
    · refine ⟨hmethods.checker, ?_⟩
      rw [checkEntry, checkEntry, hmethods.checker.lookupFunction_eq (Ne.symm hp.1)]

end Program

end Checking

end TeachLang
