import TeachLang.Proofs.Spans

/-!
# Where checking finds fault

The faults that checking finds are faults of the phase of checking, at the starts of spans: that of
the node at fault, of the argument or value that does not fit, or of the method whose signature is
wrong. Only a program that has nothing to start with is at fault at its end. So a verdict blames a
position of the tree, whatever the checker knows.
-/

namespace TeachLang

variable {α : Type} {P : Position → Prop}

/-- What checking finds out is good, or else it is a fault of checking at a position as
described. -/
abbrev Judges (P : Position → Prop) (good : α → Prop) (result : Except Diagnostic α) : Prop :=
  Answers good (Diagnostic.Blames .checking P) result

/-! ## Single tests -/

section Tests

variable {position : Position}

/-- A field is missing where it is asked for, and so it is with the tests behind: each is given the
position that it blames. -/
theorem Ty.field_judges (ty : Ty) (n : String) (h : P position) :
    Judges P (fun _ => True) (ty.field n position) := by
  rw [field]
  split
  · trivial
  · exact ⟨rfl, h⟩

theorem Ty.method_judges (ty : Ty) (n : String) (arity : Nat) (h : P position) :
    Judges P (fun _ => True) (ty.method n arity position) := by
  rw [method]
  split
  · trivial
  · exact ⟨rfl, h⟩

theorem Ty.requireAssignable_judges (target source : Ty) (h : P position) :
    Judges P (fun _ => True) (requireAssignable target source position) := by
  rw [requireAssignable]
  split
  · trivial
  · exact ⟨rfl, h⟩

theorem Registry.lookup_judges (registry : Registry) (n : String) (h : P position) :
    Judges P (fun _ => True) (registry.lookup n position) := by
  rw [lookup]
  split
  · trivial
  · exact ⟨rfl, h⟩

theorem Operator.result_judges (operator : Operator) (left right : Ty) (h : P position) :
    Judges P (fun _ => True) (operator.result left right position) := by
  rw [result]
  split
  · trivial
  · exact ⟨rfl, h⟩

theorem Literal.check_judges (value : Literal) (h : P position) :
    Judges P (fun _ => True) (value.check position) := by
  unfold check
  split
  · split
    · trivial
    · exact ⟨rfl, h⟩
  · split
    · trivial
    · exact ⟨rfl, h⟩
  · trivial

namespace Scopes

variable {V F : Type} (s : Scopes V F) (id : Nat) (n : String) (h : P position)
include h

theorem lookupVariable_judges : Judges P (fun _ => True) (s.lookupVariable id n position) := by
  rw [lookupVariable]
  split
  · trivial
  · exact ⟨rfl, h⟩

theorem lookupFunction_judges (arity : Nat) :
    Judges P (fun _ => True) (s.lookupFunction id n arity position) := by
  rw [lookupFunction]
  split
  · trivial
  · exact ⟨rfl, h⟩

theorem defineVariable_judges (value : V) :
    Judges P (fun _ => True) (s.defineVariable id n value position) := by
  rw [defineVariable]
  split
  · exact ⟨rfl, h⟩
  · trivial

theorem defineFunction_judges (arity : Nat) (f : F) :
    Judges P (fun _ => True) (s.defineFunction id n arity f position) := by
  rw [defineFunction]
  split
  · exact ⟨rfl, h⟩
  · trivial

end Scopes

theorem Checker.declare_judges (c : Checker) (v : Variable) (h : P position) :
    Judges P (fun _ => True) (c.declare v position) :=
  (c.scopes.defineVariable_judges c.scope v.name h v).bind fun _ _ => trivial

theorem Checker.declareFunction_judges (c : Checker) (f : Signature) (h : P position) :
    Judges P (fun _ => True) (c.declareFunction f position) :=
  (c.scopes.defineFunction_judges c.scope f.name h f.arity f).bind fun _ _ => trivial

end Tests

/-- An argument that does not fit is at fault where it stands. -/
theorem requireArguments_judges : ∀ {parameters : List Ty} {arguments : List (Position × Ty)},
    (∀ argument ∈ arguments, P argument.1) →
      Judges P (fun _ => True) (requireArguments parameters arguments)
  | parameter :: parameters, (position, ty) :: arguments, h => by
    obtain ⟨hfirst, hothers⟩ := List.forall_mem_cons.mp h
    exact (parameter.requireAssignable_judges ty hfirst).bind fun _ _ =>
      requireArguments_judges hothers
  | [], _, _ => trivial
  | _ :: _, [], _ => trivial

/-- A call is at fault where its callee or one of its arguments is. -/
theorem Expr.calleeFor_judges {callee : Except Diagnostic Signature}
    {arguments : List (Position × Ty)} (hcallee : Judges P (fun _ => True) callee)
    (h : ∀ argument ∈ arguments, P argument.1) :
    Judges P (fun _ => True) (calleeFor callee arguments) :=
  hcallee.bind fun _ _ => (requireArguments_judges h).bind fun _ _ => trivial

/-! ## Verdicts -/

namespace Checked

variable {T U R S : Type} {good : R → Prop} {good' : S → Prop}

/-- The verdict is good, or blames a position as described. -/
def Blames (P : Position → Prop) (good : R → Prop) (checked : Checked T R) : Prop :=
  Judges P good checked.verdict

/-- Filling a slot blames what finding its contents blamed. -/
theorem blames_fill {node : Option S → T} {held : Option S} {result : Except Diagnostic S}
    (h : Judges P good' result) : (fill node held result).Blames P good' := by
  cases result <;> exact h

/-- One check after the other blames what either does. -/
theorem Blames.andThen {part : Checked T R} {stopped : T → U} {next : T → R → Checked U S}
    (h : part.Blames P good)
    (hnext : ∀ found, good found → (next part.tree found).Blames P good') :
    (part.andThen stopped next).Blames P good' := by
  unfold Blames Checked.andThen at *
  cases hverdict : part.verdict with
  | ok found =>
    rw [hverdict] at h
    exact hnext found h
  | error d =>
    rw [hverdict] at h
    exact h

theorem Blames.map {f : R → S} {checked : Checked T R} (h : checked.Blames P good)
    (hf : ∀ found, good found → good' (f found)) : (checked.map f).Blames P good' := by
  unfold Blames Checked.map at *
  cases hverdict : checked.verdict with
  | ok found =>
    rw [hverdict] at h
    exact hf found h
  | error d =>
    rw [hverdict] at h
    exact h

theorem Blames.require {test : R → Except Diagnostic Unit} {checked : Checked T R}
    (h : checked.Blames P good) (htest : ∀ found, Judges P (fun _ => True) (test found)) :
    (checked.require test).Blames P good :=
  Answers.bind h fun found hfound => (htest found).bind fun _ _ => hfound

end Checked

open Checked

/-! ## Expressions -/

namespace Expr

mutual

/-- A fault in an expression is at the start of one of the expressions in it. -/
theorem check_blames (c : Checker) : ∀ {e : Expr}, e.On P →
    (e.check c).Blames P (fun _ => True)
  | literal value _ span, h => by
    rw [check]
    exact blames_fill (value.check_judges h.start)
  | group inner _ span, h => by
    rw [check]
    split
    · exact (check_blames c h.1).andThen fun _ _ => trivial
    · exact ⟨rfl, h.2.start⟩
  | binary operator left right _ span, h => by
    rw [check]
    refine (check_blames c h.1).andThen fun a _ => ?_
    refine (check_blames c h.2.1).andThen fun b _ => ?_
    exact blames_fill (operator.result_judges a b h.2.2.start)
  | name n _ span, h => by
    rw [check]
    exact (blames_fill (c.scopes.lookupVariable_judges c.scope n h.start)).map fun _ _ => trivial
  | member receiver n _ span, h => by
    rw [check]
    refine (check_blames c h.1).andThen fun ty _ => ?_
    exact (blames_fill (ty.field_judges n h.2.start)).map fun _ _ => trivial
  | call n arguments _ span, h => by
    rw [check]
    refine (checkArguments_blames c h.1).andThen fun tys htys => ?_
    have hcallee := c.scopes.lookupFunction_judges c.scope n h.2.start tys.length
    exact (blames_fill (calleeFor_judges hcallee htys)).map fun _ _ => trivial
  | methodCall receiver n arguments _ span, h => by
    rw [check]
    refine (checkArguments_blames c h.2.1).andThen fun tys htys => ?_
    refine (check_blames c h.1).andThen fun ty _ => ?_
    have hcallee := ty.method_judges n tys.length h.2.2.start
    exact (blames_fill (calleeFor_judges hcallee htys)).map fun _ _ => trivial

/-- The types of arguments come with where the arguments stand. -/
theorem checkArguments_blames (c : Checker) : ∀ {es : List Expr}, AllOn P es →
    (checkArguments c es).Blames P fun tys => ∀ argument ∈ tys, P argument.1
  | [], _ => by
    rw [checkArguments]
    exact nofun
  | e :: es, h => by
    have htree : (e.check c).tree.On P :=
      (on_cleared _).mp (by rw [e.cleared_check]; exact e.on_cleared.mpr h.1)
    rw [checkArguments]
    refine (check_blames c h.1).andThen fun ty _ => ?_
    refine (checkArguments_blames c h.2).andThen fun tys htys => ?_
    exact List.forall_mem_cons.mpr ⟨htree.span.start, htys⟩

end

theorem checkAs_blames (c : Checker) (required : Ty) {e : Expr} (h : e.On P) :
    (e.checkAs c required).Blames P (fun _ => True) :=
  (check_blames c h).require fun ty => required.requireAssignable_judges ty h.span.start

end Expr

/-! ## Statements -/

namespace Checker

/-- A value that may be left out. What is found out of it stands where the value does. -/
theorem checkValue_blames (c : Checker) {value : Option Expr} (h : ∀ e ∈ value, e.On P) :
    (c.checkValue value).Blames P fun found => ∀ entry ∈ found, P entry.1 := by
  cases value with
  | none => exact nofun
  | some e =>
    have he := h e rfl
    refine (e.check_blames c he).map fun ty _ entry hentry => ?_
    obtain rfl := Option.some.inj hentry
    exact he.span.start

/-- The type of a declaration is missing where it stands, or it does not fit at its value. -/
theorem variableTy_judges (name : String) (declared : Option Ty) {value : Option (Position × Ty)}
    {position : Position} (hvalue : ∀ entry ∈ value, P entry.1) (h : P position) :
    Judges P (fun _ => True) (variableTy name declared value position) := by
  unfold variableTy
  split
  · next ty place found =>
    exact (ty.requireAssignable_judges found (hvalue _ rfl)).bind fun _ _ => trivial
  · trivial
  · trivial
  · exact ⟨rfl, h⟩

theorem resolveTy_judges (c : Checker) (typeName : Option String) {position : Position}
    (h : P position) : Judges P (fun _ => True) (typeName.mapM (c.resolveTy · position)) := by
  cases typeName with
  | none => trivial
  | some n => exact (c.registry.lookup_judges n h).bind fun _ _ => trivial

theorem checkVariable_blames {T : Type} (c : Checker) (name : String) (typeName : Option String)
    {value : Option Expr} (binding : Option Variable) {position : Position}
    (node : Option Expr → Option Variable → T) (hvalue : ∀ e ∈ value, e.On P)
    (h : P position) :
    (c.checkVariable name typeName value binding position node).2.Blames P (fun _ => True) := by
  have hdeclared := c.resolveTy_judges typeName h
  have hfound := c.checkValue_blames hvalue
  rw [checkVariable]
  split
  · next d hd => exact hdeclared.of_error hd
  · next declared _ =>
    simp only
    split
    · next d hd => exact Answers.of_error hfound hd
    · next found hverdict =>
      have hty := variableTy_judges name declared (Answers.of_ok hfound hverdict) h
      split
      · next d hd => exact hty.of_error hd
      · next ty _ =>
        have hdeclare := c.declare_judges (.plain name ty) h
        split
        · next d hd => exact hdeclare.of_error hd
        · trivial

end Checker

namespace Stmt

mutual

/-- A fault in a statement is at the start of the statement, or of one of the statements and
expressions in it. -/
theorem check_blames : ∀ {stmt : Stmt} (c : Checker), stmt.On P →
    (stmt.check c).2.Blames P (fun _ => True)
  | expression e span, c, h => by
    rw [check]
    split
    · exact (e.check_blames c h.1).map fun _ _ => trivial
    · exact ⟨rfl, h.2.start⟩
  | declaration n typeName value binding span, c, h => by
    rw [check]
    exact c.checkVariable_blames n typeName binding _ h.1 h.2.start
  | assignment target value span, c, h => by
    rw [check]
    split
    · refine (target.check_blames c h.1).andThen fun ty _ => ?_
      exact (value.checkAs_blames c ty h.2.1).map fun _ _ => trivial
    · exact ⟨rfl, h.1.span.start⟩
  | conditional condition thenBody elseBody span, c, h => by
    rw [check]
    refine (condition.checkAs_blames c .boolean h.1).andThen fun _ _ => ?_
    split
    · exact ⟨rfl, h.2.2.2.start⟩
    · exact (checkAll_blames c.enter h.2.1).andThen fun _ _ => checkAll_blames c.enter h.2.2.1
  | forEach n items body span, c, h => by
    rw [check]
    refine (items.checkAs_blames c .integerIterable h.1).andThen fun _ _ => ?_
    split
    · exact ⟨rfl, h.2.2.start⟩
    · have hdeclare := c.enter.declare_judges (.plain n .integer) h.2.2.start
      split
      · next d hd => exact hdeclare.of_error hd
      · next inner _ => exact checkAll_blames inner h.2.1
  | whileLoop condition body span, c, h => by
    rw [check]
    refine (condition.checkAs_blames c .boolean h.1).andThen fun _ _ => ?_
    exact checkAll_blames c.enter h.2.1
  | returns value span, c, h => by
    rw [check]
    exact (value.check_blames c h.1).map fun _ _ => trivial

/-- A block blames what its statements do, whatever they leave the checker with. -/
theorem checkAll_blames : ∀ {stmts : List Stmt} (c : Checker), AllOn P stmts →
    (checkAll c stmts).2.Blames P (fun _ => True)
  | [], _, _ => by
    rw [checkAll]
    trivial
  | stmt :: stmts, c, h => by
    have hfirst := check_blames c h.1
    rw [checkAll]
    simp only
    split
    · next d hd => exact Answers.of_error hfirst hd
    · exact checkAll_blames _ h.2

end

end Stmt

/-! ## Programs -/

theorem Field.check_blames (c : Checker) {f : Field} (h : f.On P) :
    (f.check c).2.Blames P (fun _ => True) :=
  c.checkVariable_blames f.name (some f.typeName) f.binding _ h.value h.span.start

namespace Method

/-- A signature is at fault where its method starts. -/
theorem signature_judges (c : Checker) {m : Method} (h : m.On P) :
    Judges P (fun _ => True) (c.signature m) := by
  have hparameters : ∀ parameters : List (String × String), Judges P (fun _ => True)
      (parameters.mapM fun parameter => c.resolveTy parameter.2 m.span.start) := by
    intro parameters
    induction parameters with
    | nil => trivial
    | cons parameter parameters ih =>
      rw [List.mapM_cons]
      exact (c.registry.lookup_judges parameter.2 h.span.start).bind fun _ _ =>
        ih.bind fun _ _ => trivial
  exact (hparameters m.parameters).bind fun _ _ =>
    (c.resolveTy_judges m.resultTypeName h.span.start).bind fun _ _ => trivial

theorem declareAll_judges {position : Position} (h : P position) : ∀ (c : Checker)
    (vs : List Variable), Judges P (fun _ => True) (c.declareAll position vs)
  | _, [] => trivial
  | c, v :: vs => (c.declare_judges v h).bind fun next _ => declareAll_judges h next vs

theorem checkBody_blames (c : Checker) {m : Method} (f : Signature) (h : m.On P) :
    (checkBody c m f).Blames P (fun _ => True) := by
  have hdeclare := declareAll_judges h.span.start c.enter (m.parameterVariables f)
  rw [checkBody]
  split
  · next d hd => exact hdeclare.of_error hd
  · next inner _ => exact Stmt.checkAll_blames inner h.body

theorem check_blames (c : Checker) {m : Method} (h : m.On P) :
    (m.check c).2.Blames P (fun _ => True) := by
  have hsignature := signature_judges c h
  rw [check]
  split
  · next d hd => exact hsignature.of_error hd
  · next f _ =>
    have hdeclare := c.declareFunction_judges f h.span.start
    split
    · next d hd => exact hdeclare.of_error hd
    · exact checkBody_blames _ f ⟨h.body, h.span⟩

end Method

namespace Program

/-- Fields or methods one after the other blame what each does. -/
theorem checkEach_blames {T : Type} {check : Checker → T → Checker × Checked T Unit} :
    ∀ {items : List T} (c : Checker),
      (∀ item ∈ items, ∀ c, (check c item).2.Blames P (fun _ => True)) →
      (checkEach check c items).2.Blames P (fun _ => True)
  | [], _, _ => trivial
  | item :: items, c, h => by
    obtain ⟨hfirst, hothers⟩ := List.forall_mem_cons.mp h
    rw [checkEach]
    simp only
    split
    · next d hd => exact Answers.of_error (hfirst c) hd
    · exact checkEach_blames _ hothers

/-- The entry of a program is looked for at its end. -/
theorem checkEntry_judges (c : Checker) {p : Program} (h : p.On P) :
    Judges P (fun _ => True) (checkEntry c p) := by
  have hentry : P p.entryPosition := by
    rw [entryPosition]
    split
    · next m hm => exact (h.methods m (List.mem_of_find?_eq_some hm)).span.start
    · exact h.span.start
  rw [checkEntry]
  split
  · exact ⟨rfl, h.span.stop⟩
  · next f _ => exact Ty.integer.requireAssignable_judges f.result hentry

/-- A program that is not accepted has a fault of checking at a position of its own. -/
theorem check_blames (c : Checker) {p : Program} (h : p.On P) :
    (p.check c).2.Blames P (fun _ => True) := by
  have hfields := checkEach_blames c fun f hf c => Field.check_blames c (h.fields f hf)
  rw [check]
  simp only
  split
  · next d hd => exact Answers.of_error hfields hd
  · have hmethods := checkEach_blames (checkEach Field.check c p.fields).1
      fun m hm c => Method.check_blames c (h.methods m hm)
    split
    · next d hd => exact Answers.of_error hmethods hd
    · exact checkEntry_judges _ h

end Program

end TeachLang
