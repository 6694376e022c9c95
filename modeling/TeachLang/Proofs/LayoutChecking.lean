import TeachLang.Proofs.Layout
import TeachLang.Typing.Program

/-!
# Checking does not look at places

To check an unplaced tree is to check the tree and forget the places: the checker goes on alike, the
same slots are filled with the same, and there is the same verdict, up to the place of a fault. So
there is one rule for each combinator of `Checked`, and one case for each constructor of trees.
-/

namespace TeachLang

variable {T U T' U' R S R' S' : Type}

namespace Checked

/-- A result of checking without places, given what is left of the tree and of what was found. -/
def unplaced (strip : T → U) (found : R → S) (checked : Checked T R) : Checked U S :=
  ⟨strip checked.tree, unplacedResult found checked.verdict⟩

variable {strip : T → T'} {strip' : U → U'} {found : R → R'} {found' : S → S'}

/-- A slot is filled with the same, or left with what it held on both sides. -/
theorem unplaced_fill {node : Option S → U} {node' : Option S → U'} {held : Option S}
    {result result' : Except Diagnostic S} (hresult : result' = unplacedResult id result)
    (hnode : ∀ slot, node' slot = strip' (node slot)) :
    fill node' held result' = (fill node held result).unplaced strip' id := by
  subst hresult
  cases result with
  | ok x => exact congrArg (Checked.mk · _) (hnode _)
  | error d => exact congrArg (Checked.mk · _) (hnode _)

/-- The second part is looked at on both sides or on neither. -/
theorem unplaced_andThen {part : Checked T R} {part' : Checked T' R'} {stopped : T → U}
    {stopped' : T' → U'} {next : T → R → Checked U S} {next' : T' → R' → Checked U' S'}
    (hpart : part' = part.unplaced strip found)
    (hstopped : ∀ tree, stopped' (strip tree) = strip' (stopped tree))
    (hnext : ∀ tree x, next' (strip tree) (found x) = (next tree x).unplaced strip' found') :
    part'.andThen stopped' next' = (part.andThen stopped next).unplaced strip' found' := by
  subst hpart
  obtain ⟨tree, verdict⟩ := part
  cases verdict with
  | ok x => exact hnext tree x
  | error d => exact congrArg (Checked.mk · _) (hstopped tree)

/-- What is made of a finding has no places in it. -/
theorem unplaced_map {part : Checked T R} {part' : Checked T' R'} {f : R → S} {f' : R' → S'}
    (hpart : part' = part.unplaced strip found) (hf : ∀ x, f' (found x) = found' (f x)) :
    part'.map f' = (part.map f).unplaced strip found' := by
  subst hpart
  obtain ⟨tree, verdict⟩ := part
  cases verdict with
  | ok x => exact congrArg (Checked.mk (strip tree) <| Except.ok ·) (hf x)
  | error d => rfl

/-- A part without places is put into a tree without places. -/
theorem unplaced_within {part : Checked T R} {part' : Checked T' R'} {place : T → U}
    {place' : T' → U'} (hpart : part' = part.unplaced strip found)
    (hplace : ∀ tree, place' (strip tree) = strip' (place tree)) :
    part'.within place' = (part.within place).unplaced strip' found := by
  subst hpart
  exact congrArg (Checked.mk · _) (hplace part.tree)

/-- A test that finds the same faults up to places leaves the part as it is. -/
theorem unplaced_require {part : Checked T R} {part' : Checked T' R'}
    {test : R → Except Diagnostic Unit} {test' : R' → Except Diagnostic Unit}
    (hpart : part' = part.unplaced strip found)
    (htest : ∀ x, test' (found x) = unplacedResult id (test x)) :
    part'.require test' = (part.require test).unplaced strip found := by
  subst hpart
  obtain ⟨tree, verdict⟩ := part
  cases verdict with
  | error d => rfl
  | ok x =>
    refine congrArg (Checked.mk (strip tree)) ?_
    change (test' (found x) >>= fun _ => _) = _
    rw [htest]
    change _ = unplacedResult found (test x >>= fun _ => _)
    cases test x <;> rfl

end Checked

/-! ## What is looked up -/

section Lookups

variable (position : Position)

/-- Whether a constant is in range does not depend on where it stands. -/
theorem Literal.check_unplaced (literal : Literal) :
    literal.check default = unplacedResult id (literal.check position) := by
  cases literal with
  | integer n =>
    rw [check, check]
    split <;> rfl
  | decimal d =>
    rw [check, check]
    split <;> rfl
  | _ => rfl

/-- An operator gives the same type, or fits no better, at every place. -/
theorem Operator.result_unplaced (operator : Operator) (a b : Ty) :
    operator.result a b default = unplacedResult id (operator.result a b position) := by
  rw [result, result]
  cases operator.result? a b <;> rfl

/-- The place where types do not fit is only told. -/
theorem Ty.requireAssignable_unplaced (a b : Ty) :
    a.requireAssignable b default = unplacedResult id (a.requireAssignable b position) := by
  rw [requireAssignable, requireAssignable]
  split <;> rfl

/-- The same fields are missing, wherever they are asked for. -/
theorem Ty.field_unplaced (ty : Ty) (n : String) :
    ty.field n default = unplacedResult id (ty.field n position) := by
  rw [field, field]
  cases ty.field? n <;> rfl

theorem Ty.method_unplaced (ty : Ty) (n : String) (arity : Nat) :
    ty.method n arity default = unplacedResult id (ty.method n arity position) := by
  rw [method, method]
  cases ty.method? n arity <;> rfl

namespace Checker

variable (c : Checker)

/-- A name means the same type wherever it is written. -/
theorem resolveTy_unplaced (n : String) :
    c.resolveTy n default = unplacedResult id (c.resolveTy n position) := by
  rw [resolveTy, resolveTy, Registry.lookup, Registry.lookup]
  cases c.registry.lookup? n <;> rfl

theorem lookupVariable_unplaced (n : String) :
    c.lookupVariable n default = unplacedResult id (c.lookupVariable n position) := by
  rw [lookupVariable, lookupVariable, Scopes.lookupVariable, Scopes.lookupVariable]
  cases c.scopes.nearestVariable? c.scope n <;> rfl

theorem lookupFunction_unplaced (n : String) (arity : Nat) :
    c.lookupFunction n arity default = unplacedResult id (c.lookupFunction n arity position) := by
  rw [lookupFunction, lookupFunction, Scopes.lookupFunction, Scopes.lookupFunction]
  cases c.scopes.nearestFunction? c.scope n arity <;> rfl

theorem declare_unplaced (v : Variable) :
    c.declare v default = unplacedResult id (c.declare v position) := by
  rw [declare, declare, Scopes.defineVariable, Scopes.defineVariable]
  cases c.scopes.variableIn? v.name c.scope <;> rfl

theorem declareFunction_unplaced (f : Signature) :
    c.declareFunction f default = unplacedResult id (c.declareFunction f position) := by
  rw [declareFunction, declareFunction, Scopes.defineFunction, Scopes.defineFunction]
  cases c.scopes.functionIn? f.name f.arity c.scope <;> rfl

end Checker

end Lookups

/-! ## Expressions -/

/-- What was found of an argument, without its place. -/
def unplacedArgument (argument : Position × Ty) : Position × Ty := (default, argument.2)

/-- Arguments are compared with parameters by their types alone; their places are told if one does
not fit. -/
theorem requireArguments_unplaced : ∀ (parameters : List Ty) (arguments : List (Position × Ty)),
    requireArguments parameters (arguments.map unplacedArgument) =
      unplacedResult id (requireArguments parameters arguments)
  | parameter :: parameters, (position, ty) :: arguments =>
    unplacedResult_bind (Ty.requireAssignable_unplaced position parameter ty) fun _ =>
      requireArguments_unplaced parameters arguments
  | [], _ => rfl
  | _ :: _, [] => rfl

namespace Expr

/-- What is called is found alike, and takes the same arguments. -/
theorem calleeFor_unplaced {callee callee' : Except Diagnostic Signature}
    (h : callee' = unplacedResult id callee) (arguments : List (Position × Ty)) :
    calleeFor callee' (arguments.map unplacedArgument) =
      unplacedResult id (calleeFor callee arguments) :=
  unplacedResult_bind h fun f =>
    unplacedResult_bind (requireArguments_unplaced f.parameters arguments) fun _ => rfl

open Checked

mutual

/-- To check an unplaced expression is to check the expression and forget the places: a case for
each constructor, and in each the rule for the combinator that checking uses there. -/
theorem check_unplaced (c : Checker) : ∀ e : Expr,
    e.unplaced.check c = (e.check c).unplaced Expr.unplaced id
  | literal value held span => by
    rw [unplaced, check, check]
    exact unplaced_fill (value.check_unplaced span.start) fun _ => rfl
  | group inner held span => by
    rw [unplaced, check, check, isBinary_unplaced]
    split
    · exact unplaced_andThen (check_unplaced c inner) (fun _ => rfl) fun _ _ => rfl
    · rfl
  | binary operator left right held span => by
    rw [unplaced, check, check]
    exact unplaced_andThen (check_unplaced c left) (fun _ => rfl) fun _ a =>
      unplaced_andThen (check_unplaced c right) (fun _ => rfl) fun _ b =>
        unplaced_fill (operator.result_unplaced span.start a b) fun _ => rfl
  | name n held span => by
    rw [unplaced, check, check]
    exact unplaced_map (unplaced_fill (c.lookupVariable_unplaced span.start n) fun _ => rfl)
      fun _ => rfl
  | member receiver n held span => by
    rw [unplaced, check, check]
    exact unplaced_andThen (check_unplaced c receiver) (fun _ => rfl) fun _ ty =>
      unplaced_map (unplaced_fill (ty.field_unplaced span.start n) fun _ => rfl) fun _ => rfl
  | call n arguments held span => by
    rw [unplaced, check, check]
    refine unplaced_andThen (checkArguments_unplaced c arguments) (fun _ => rfl) fun _ tys => ?_
    rw [List.length_map]
    exact unplaced_map (unplaced_fill
      (calleeFor_unplaced (c.lookupFunction_unplaced span.start n tys.length) tys) fun _ => rfl)
      fun _ => rfl
  | methodCall receiver n arguments held span => by
    rw [unplaced, check, check]
    refine unplaced_andThen (checkArguments_unplaced c arguments) (fun _ => rfl) fun _ tys =>
      unplaced_andThen (check_unplaced c receiver) (fun _ => rfl) fun _ ty => ?_
    rw [List.length_map]
    exact unplaced_map (unplaced_fill
      (calleeFor_unplaced (ty.method_unplaced span.start n tys.length) tys) fun _ => rfl)
      fun _ => rfl

theorem checkArguments_unplaced (c : Checker) : ∀ es : List Expr,
    checkArguments c (allUnplaced es) =
      (checkArguments c es).unplaced allUnplaced (List.map unplacedArgument)
  | [] => rfl
  | e :: es => by
    rw [allUnplaced, checkArguments, checkArguments]
    refine unplaced_andThen (check_unplaced c e) (fun _ => rfl) fun tree ty =>
      unplaced_andThen (checkArguments_unplaced c es) (fun _ => rfl) fun trees tys => ?_
    rw [span_unplaced]
    rfl

end

/-- The same with a type that is asked for. -/
theorem checkAs_unplaced (c : Checker) (required : Ty) (e : Expr) :
    e.unplaced.checkAs c required = (e.checkAs c required).unplaced Expr.unplaced id := by
  rw [checkAs, checkAs, span_unplaced]
  exact unplaced_require (e.check_unplaced c) fun ty =>
    required.requireAssignable_unplaced e.span.start ty

end Expr

/-! ## Statements -/

namespace Checker

/-- What checking comes to, without places, and the checker for what comes next. -/
def unplaced (strip : T → U) (result : Checker × Checked T Unit) : Checker × Checked U Unit :=
  (result.1, result.2.unplaced strip id)

/-- What was found of the value of a variable, without its place. -/
def unplacedValue (value : Option (Position × Ty)) : Option (Position × Ty) :=
  value.map unplacedArgument

/-- The first value of a variable is checked alike, or there is none on both sides. -/
theorem checkValue_unplaced (c : Checker) (value : Option Expr) :
    c.checkValue (value.map Expr.unplaced) =
      (c.checkValue value).unplaced (Option.map Expr.unplaced) unplacedValue := by
  cases value with
  | none => rfl
  | some e =>
    rw [Option.map_some, checkValue, checkValue, e.span_unplaced]
    exact Checked.unplaced_within (Checked.unplaced_map (e.check_unplaced c) fun _ => rfl)
      fun _ => rfl

/-- The type of a variable comes from its name or its value, and not from their places. -/
theorem variableTy_unplaced (n : String) (declared : Option Ty) (value : Option (Position × Ty))
    (position : Position) : variableTy n declared (unplacedValue value) default =
      unplacedResult id (variableTy n declared value position) := by
  rcases declared with _ | ty <;> rcases value with _ | ⟨place, found⟩
  · rfl
  · rfl
  · rfl
  · exact unplacedResult_bind (ty.requireAssignable_unplaced place found) fun _ => rfl

/-- A variable is declared alike, whatever tree is built around its slot, if that tree forgets no
more than places. -/
theorem checkVariable_unplaced (c : Checker) (n : String) (typeName : Option String)
    (value : Option Expr) (held : Option Variable) (position : Position)
    {node : Option Expr → Option Variable → T} {node' : Option Expr → Option Variable → U}
    {strip : T → U}
    (h : ∀ value slot, node' (value.map Expr.unplaced) slot = strip (node value slot)) :
    c.checkVariable n typeName (value.map Expr.unplaced) held default node' =
      unplaced strip (c.checkVariable n typeName value held position node) := by
  have htype : typeName.mapM (c.resolveTy · default) =
      unplacedResult id (typeName.mapM (c.resolveTy · position)) := by
    cases typeName with
    | none => rfl
    | some name => exact unplacedResult_bind (c.resolveTy_unplaced position name) fun _ => rfl
  have hstopped : ∀ (value : Option Expr) (d : Diagnostic),
      ((c, ⟨node' (value.map Expr.unplaced) held, .error d.unplaced⟩) : Checker × Checked U Unit) =
        unplaced strip (c, ⟨node value held, .error d⟩) := fun value d =>
    congrArg (fun tree => (c, Checked.mk tree _)) (h value held)
  unfold checkVariable
  simp only [htype, checkValue_unplaced]
  cases typeName.mapM (c.resolveTy · position) with
  | error d => exact hstopped value d
  | ok declared =>
    obtain ⟨tree, verdict⟩ := c.checkValue value
    cases verdict with
    | error d => exact hstopped tree d
    | ok found =>
      simp only [Checked.unplaced, unplacedResult, id_eq,
        variableTy_unplaced n declared found position]
      cases variableTy n declared found position with
      | error d => exact hstopped tree d
      | ok ty =>
        simp only [c.declare_unplaced position, unplacedResult, id_eq]
        cases c.declare (.plain n ty) position with
        | error d => exact hstopped tree d
        | ok next => exact congrArg (fun tree => (next, Checked.mk tree _)) (h tree _)

end Checker

namespace Stmt

open Checked

mutual

/-- To check an unplaced statement is to check the statement and forget the places. The checker that
goes on is the same. -/
theorem check_unplaced : ∀ (stmt : Stmt) (c : Checker),
    stmt.unplaced.check c = Checker.unplaced unplaced (stmt.check c)
  | expression e span, c => by
    rw [unplaced, check, check, e.isCall_unplaced]
    split
    · exact congrArg (Prod.mk c) (unplaced_within (unplaced_map (e.check_unplaced c) fun _ => rfl)
        fun _ => rfl)
    · rfl
  | declaration n typeName value held span, c => by
    rw [unplaced, check, check]
    exact c.checkVariable_unplaced n typeName value held span.start fun _ _ => rfl
  | assignment target value span, c => by
    rw [unplaced, check, check, target.isAccess_unplaced, target.span_unplaced]
    split
    · refine congrArg (Prod.mk c) (unplaced_andThen (target.check_unplaced c) (fun _ => rfl)
        fun _ ty => ?_)
      exact unplaced_within (unplaced_map (value.checkAs_unplaced c ty) fun _ => rfl) fun _ => rfl
    · rfl
  | conditional condition thenBody elseBody span, c => by
    rw [unplaced, check, check, isEmpty_allUnplaced]
    refine congrArg (Prod.mk c) (unplaced_andThen (condition.checkAs_unplaced c .boolean)
      (fun _ => rfl) fun _ _ => ?_)
    split
    · rfl
    · rw [checkAll_unplaced thenBody, checkAll_unplaced elseBody]
      exact unplaced_andThen rfl (fun _ => rfl) fun _ _ => unplaced_within rfl fun _ => rfl
  | forEach n items body span, c => by
    rw [unplaced, check, check, isEmpty_allUnplaced]
    refine congrArg (Prod.mk c) (unplaced_andThen (items.checkAs_unplaced c .integerIterable)
      (fun _ => rfl) fun _ _ => ?_)
    split
    · rfl
    · have hdeclare := c.enter.declare_unplaced span.start (.plain n .integer)
      change c.enter.declare (.plain n .integer) (default : Span).start = _ at hdeclare
      rw [hdeclare]
      cases c.enter.declare (.plain n .integer) span.start with
      | error d => rfl
      | ok inner =>
        simp only [unplacedResult, id_eq, checkAll_unplaced body]
        exact unplaced_within rfl fun _ => rfl
  | whileLoop condition body span, c => by
    rw [unplaced, check, check]
    refine congrArg (Prod.mk c) (unplaced_andThen (condition.checkAs_unplaced c .boolean)
      (fun _ => rfl) fun _ _ => ?_)
    rw [checkAll_unplaced body]
    exact unplaced_within rfl fun _ => rfl
  | returns value span, c => by
    rw [unplaced, check, check]
    exact congrArg (Prod.mk c) (unplaced_within (unplaced_map (value.check_unplaced c)
      fun _ => rfl) fun _ => rfl)

theorem checkAll_unplaced : ∀ (stmts : List Stmt) (c : Checker),
    checkAll c (allUnplaced stmts) = Checker.unplaced allUnplaced (checkAll c stmts)
  | [], c => rfl
  | stmt :: stmts, c => by
    rw [allUnplaced, checkAll, checkAll, check_unplaced stmt]
    obtain ⟨next, tree, verdict⟩ := stmt.check c
    cases verdict with
    | error d => rfl
    | ok found =>
      simp only [Checker.unplaced, Checked.unplaced, unplacedResult, checkAll_unplaced stmts next]
      rfl

end

end Stmt

/-! ## Programs -/

/-- A field is checked as the declaration of a variable is. -/
theorem Field.check_unplaced (f : Field) (c : Checker) :
    f.unplaced.check c = Checker.unplaced unplaced (f.check c) :=
  c.checkVariable_unplaced f.name (some f.typeName) f.value f.binding f.span.start fun _ _ => rfl

namespace Method

/-- The types in a signature are found by their names. -/
theorem signature_unplaced (m : Method) (c : Checker) :
    c.signature m.unplaced = unplacedResult id (c.signature m) := by
  have hparameters : ∀ parameters : List (String × String),
      (parameters.mapM fun parameter => c.resolveTy parameter.2 default) =
        unplacedResult id
          (parameters.mapM fun parameter => c.resolveTy parameter.2 m.span.start) := by
    intro parameters
    induction parameters with
    | nil => rfl
    | cons parameter parameters ih =>
      rw [List.mapM_cons, List.mapM_cons]
      exact unplacedResult_bind (c.resolveTy_unplaced m.span.start parameter.2) fun _ =>
        unplacedResult_bind ih fun _ => rfl
  have hresult : ∀ result : Option String, (result.mapM fun n => c.resolveTy n default) =
      unplacedResult id (result.mapM fun n => c.resolveTy n m.span.start) := by
    intro result
    cases result with
    | none => rfl
    | some n => exact unplacedResult_bind (c.resolveTy_unplaced m.span.start n) fun _ => rfl
  exact unplacedResult_bind (hparameters m.parameters) fun _ =>
    unplacedResult_bind (hresult m.resultTypeName) fun _ => rfl

/-- Parameters are declared alike; only a name that comes twice tells its place. -/
theorem declareAll_unplaced (position : Position) : ∀ (vs : List Variable) (c : Checker),
    c.declareAll default vs = unplacedResult id (c.declareAll position vs)
  | [], _ => rfl
  | v :: vs, c =>
    unplacedResult_bind (c.declare_unplaced position v) fun next =>
      declareAll_unplaced position vs next

/-- The body of a method is checked alike in the scope of its parameters. -/
theorem checkBody_unplaced (m : Method) (c : Checker) (f : Signature) :
    checkBody c m.unplaced f = (checkBody c m f).unplaced unplaced id := by
  have hdeclare := declareAll_unplaced m.span.start (m.parameterVariables f) c.enter
  change c.enter.declareAll m.unplaced.span.start (m.unplaced.parameterVariables f) = _ at hdeclare
  rw [checkBody, checkBody, hdeclare]
  cases c.enter.declareAll m.span.start (m.parameterVariables f) with
  | error d => rfl
  | ok inner =>
    have hbody : m.unplaced.body = Stmt.allUnplaced m.body := rfl
    simp only [unplacedResult, id_eq, hbody, Stmt.checkAll_unplaced m.body inner]
    exact Checked.unplaced_within rfl fun _ => rfl

/-- A method is checked alike under the signature that it declares. -/
theorem check_unplaced (m : Method) (c : Checker) :
    m.unplaced.check c = Checker.unplaced unplaced (m.check c) := by
  rw [check, check, m.signature_unplaced c]
  cases c.signature m with
  | error d => rfl
  | ok f =>
    have hdeclare := c.declareFunction_unplaced m.span.start f
    change c.declareFunction f m.unplaced.span.start = _ at hdeclare
    simp only [unplacedResult, id_eq, hdeclare]
    cases c.declareFunction f m.span.start with
    | error d => rfl
    | ok next =>
      exact congrArg (Prod.mk next) (checkBody_unplaced { m with callee := some f } next f)

end Method

namespace Program

/-- What holds of one part holds of a list of parts, which stops at the first fault. -/
theorem checkEach_unplaced {check : Checker → T → Checker × Checked T Unit} {strip : T → T}
    (h : ∀ item c, check c (strip item) = Checker.unplaced strip (check c item)) :
    ∀ (items : List T) (c : Checker), checkEach check c (items.map strip) =
      Checker.unplaced (List.map strip) (checkEach check c items)
  | [], c => rfl
  | item :: items, c => by
    rw [List.map_cons, checkEach, checkEach, h]
    obtain ⟨next, tree, verdict⟩ := check c item
    cases verdict with
    | error d => rfl
    | ok found =>
      simp only [Checker.unplaced, Checked.unplaced, unplacedResult,
        checkEach_unplaced h items next]
      rfl

/-- The entry method is looked up alike; where it stands is only told. -/
theorem checkEntry_unplaced (p : Program) (c : Checker) :
    checkEntry c p.unplaced = unplacedResult id (checkEntry c p) := by
  have hposition : p.unplaced.entryPosition = default := by
    have hentry : isEntry ∘ Method.unplaced = isEntry := rfl
    rw [entryPosition, unplaced, List.find?_map, hentry]
    cases p.methods.find? isEntry <;> rfl
  have hlookup := c.lookupFunction_unplaced p.span.stop entryName 0
  change c.lookupFunction entryName 0 p.unplaced.span.stop = _ at hlookup
  rw [checkEntry, checkEntry, hlookup, hposition]
  cases c.lookupFunction entryName 0 p.span.stop with
  | error d => rfl
  | ok f => exact Ty.requireAssignable_unplaced p.entryPosition .integer f.result

/-- To check an unplaced program is to check the program and forget the places. -/
theorem check_unplaced (p : Program) (c : Checker) :
    p.unplaced.check c = Checker.unplaced unplaced (p.check c) := by
  have hfields : p.unplaced.fields = p.fields.map Field.unplaced := rfl
  have hmethods : p.unplaced.methods = p.methods.map Method.unplaced := rfl
  unfold check
  simp only [hfields, hmethods, checkEach_unplaced Field.check_unplaced p.fields]
  obtain ⟨next, fields, verdict⟩ := checkEach Field.check c p.fields
  cases verdict with
  | error d => rfl
  | ok found =>
    simp only [Checker.unplaced, Checked.unplaced, unplacedResult,
      checkEach_unplaced Method.check_unplaced p.methods]
    obtain ⟨last, methods, verdict⟩ := checkEach Method.check next p.methods
    cases verdict with
    | error d => rfl
    | ok found =>
      simp only [unplacedResult, checkEntry_unplaced p last]
      rfl

end Program

end TeachLang
