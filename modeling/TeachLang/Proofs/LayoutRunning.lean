import Mathlib.Data.List.Forall2
import TeachLang.Proofs.Images
import TeachLang.Proofs.LayoutChecking
import TeachLang.Proofs.LayoutReading

/-!
# Running does not look at places

To run an unplaced program on an unplaced machine is to run the program and forget the places. Only
the host may blame a place of its own, which is the same for both. So programs that are the same up
to layout print the same, come to the same value or fault and leave the same variables behind
(`Program.layout_changes_nothing`).
-/

namespace TeachLang

variable {α : Type}

/-! ## Unplaced machines -/

/-- What can be called, without its spans. -/
def Callable.unplaced : Callable → Callable
  | .print => .print
  | .native answer => .native answer
  | .method m scope => .method m.unplaced scope

/-- A machine without the spans in its methods. -/
def Machine.unplaced (m : Machine) : Machine :=
  ⟨m.scopes.mapFunctions Callable.unplaced, m.scope, m.printer⟩

/-- The end of a run without the spans in the methods of the machine and without the place of the
diagnostic. -/
def Outcome.unplaced : Outcome α → Outcome α
  | .done result m => .done result m.unplaced
  | .failed d m => .failed d.unplaced m.unplaced
  | .exhausted => .exhausted

/-- The end of a run without the place of the diagnostic. -/
def Outcome.blurred : Outcome α → Outcome α
  | .done result m => .done result m
  | .failed d m => .failed d.unplaced m
  | .exhausted => .exhausted

/-- Without places all of them are the same. -/
theorem Diagnostic.samePlace_unplaced {p q : Position} : SamePlace unplaced p q := fun _ => rfl

/-- A machine holds the same variables without places. -/
theorem Machine.bindings_unplaced (m : Machine) (id : Nat) :
    m.unplaced.scopes.bindings id = m.scopes.bindings id := by
  rw [Scopes.bindings, Scopes.bindings, unplaced, Scopes.get?_mapFunctions]
  cases m.scopes.get? id <;> rfl

namespace Run

/-- The image of a run under forgetting places. -/
def Unplaces (r image : Run α) : Prop := Maps Callable.unplaced Diagnostic.unplaced r image

/-- What is left of an end without its place is the end of the run without places. -/
theorem Unplaces.unplaced_eq {r image : Run α} (h : r.Unplaces image) (m : Machine) :
    (r m).unplaced = (image m.unplaced).blurred := by
  have hm : Outcome.Maps Callable.unplaced Diagnostic.unplaced (r m) (image m.unplaced) := h m
  generalize r m = a at hm ⊢
  generalize image m.unplaced = b at hm ⊢
  cases hm with
  | done result last => rfl
  | failed last hd => exact congrArg (Outcome.failed · last.unplaced) hd.symm
  | exhausted => rfl

end Run

/-! ## Expressions -/

variable {host : Host} {caller caller' : Caller} {fuel : Nat}

namespace Expr

open Run

/-- Without its spans an expression designates the same part of the same variable. -/
theorem place?_unplaced : ∀ e : Expr,
    Option.Rel (Place.Same Diagnostic.unplaced) e.unplaced.place? e.place?
  | name n _ span => .some ⟨rfl, Diagnostic.samePlace_unplaced, .nil⟩
  | member receiver n _ span => by
    have hreceiver := place?_unplaced receiver
    rw [unplaced, place?, place?]
    generalize receiver.unplaced.place? = a at hreceiver ⊢
    generalize receiver.place? = b at hreceiver ⊢
    cases hreceiver with
    | none => exact .none
    | some h =>
      refine .some ⟨h.name, Diagnostic.samePlace_unplaced, ?_⟩
      exact List.rel_append h.path (.cons ⟨rfl, Diagnostic.samePlace_unplaced⟩ .nil)
  | literal .. | group .. | binary .. | call .. | methodCall .. => .none

mutual

/-- An expression comes to the same wherever its nodes stand, and fails with the same fault. -/
theorem evaluate_unplaces (h : Caller.Maps Callable.unplaced Diagnostic.unplaced caller caller') :
    ∀ e : Expr, (e.evaluate host caller).Unplaces (e.unplaced.evaluate host caller')
  | literal .. => maps_pure _
  | group inner .. => evaluate_unplaces h inner
  | binary operator left right _ _ =>
    (evaluate_unplaces h left).bind fun value =>
      evaluateBinary_maps Diagnostic.samePlace_unplaced operator value (evaluate_unplaces h right)
  | name n .. => lookupVariable_maps Diagnostic.samePlace_unplaced n
  | member receiver n .. =>
    (evaluate_unplaces h receiver).bind fun value =>
      maps_ofExcept (value.field_samePlace Diagnostic.samePlace_unplaced n)
  | call _ arguments .. =>
    (evaluateAll_unplaces h arguments).bind fun _ => h _ _ Diagnostic.samePlace_unplaced
  | methodCall receiver n arguments .. =>
    (evaluate_unplaces h receiver).bind fun value =>
      (evaluateAll_unplaces h arguments).bind fun values =>
        maps_ofExcept (value.callMethod_samePlace Diagnostic.samePlace_unplaced host n values)

theorem evaluateAll_unplaces
    (h : Caller.Maps Callable.unplaced Diagnostic.unplaced caller caller') :
    ∀ es : List Expr, (evaluateAll host caller es).Unplaces
      (evaluateAll host caller' (allUnplaced es))
  | [] => maps_pure _
  | e :: es =>
    (evaluate_unplaces h e).bind fun _ =>
      (evaluateAll_unplaces h es).bind fun _ => maps_pure _

end

section Caller

variable (h : Caller.Maps Callable.unplaced Diagnostic.unplaced caller caller')

include h

theorem evaluateTruth_unplaces (e : Expr) :
    (e.evaluateTruth host caller).Unplaces (e.unplaced.evaluateTruth host caller') :=
  (e.evaluate_unplaces h).bind fun value =>
    maps_ofExcept (value.truth_samePlace Diagnostic.samePlace_unplaced)

theorem evaluateItems_unplaces (e : Expr) :
    (e.evaluateItems host caller).Unplaces (e.unplaced.evaluateItems host caller') := by
  refine (e.evaluate_unplaces h).bind fun value => ?_
  split
  · exact maps_pure _
  · exact maps_fail Diagnostic.samePlace_unplaced _

theorem assign_unplaces (target e : Expr) :
    (target.assign host caller e).Unplaces (target.unplaced.assign host caller' e.unplaced) := by
  cases target with
  | name n _ span =>
    exact (e.evaluate_unplaces h).bind fun value =>
      Run.assign_maps Diagnostic.samePlace_unplaced n value
  | member receiver n _ span =>
    have hplace := receiver.place?_unplaced
    rw [unplaced, assign, assign]
    refine (e.evaluate_unplaces h).bind fun value => ?_
    have hset : ∀ whole : Value, (whole.setField n value default).mapError Diagnostic.unplaced =
        (whole.setField n value span.start).mapError Diagnostic.unplaced := fun whole =>
      whole.setField_samePlace Diagnostic.samePlace_unplaced n value
    generalize receiver.unplaced.place? = a at hplace ⊢
    generalize receiver.place? = b at hplace ⊢
    cases hplace with
    | some hsame => exact Place.change_maps hsame hset
    | none =>
      exact (receiver.evaluate_unplaces h).bind fun whole =>
        (maps_ofExcept (hset whole)).bind fun _ => maps_pure _
  | literal | group | binary | call | methodCall =>
    exact maps_fail Diagnostic.samePlace_unplaced _

theorem value_unplaces (value : Option Expr) :
    Unplaces (value.elim (Run.pure .nil) (Expr.evaluate host caller))
      ((value.map Expr.unplaced).elim (Run.pure .nil) (Expr.evaluate host caller')) := by
  cases value with
  | none => exact maps_pure _
  | some e => exact e.evaluate_unplaces h

end Caller

end Expr

/-! ## Statements -/

namespace Stmt

open Run

mutual

/-- A statement does the same wherever it stands. -/
theorem execute_unplaces (h : Caller.Maps Callable.unplaced Diagnostic.unplaced caller caller') :
    ∀ stmt : Stmt,
      (stmt.execute host caller fuel).Unplaces (stmt.unplaced.execute host caller' fuel)
  | expression e _ => (e.evaluate_unplaces h).bind fun _ => maps_pure _
  | declaration n _ value _ _ =>
    (Expr.value_unplaces h value).bind fun found =>
      (declare_maps Diagnostic.samePlace_unplaced n found).bind fun _ => maps_pure _
  | assignment target value _ => (target.assign_unplaces h value).bind fun _ => maps_pure _
  | conditional condition thenBody elseBody _ => by
    refine (condition.evaluateTruth_unplaces h).bind fun b => ?_
    split
    · exact (executeAll_unplaces h thenBody).inBlock
    · exact (executeAll_unplaces h elseBody).inBlock
  | forEach n items body _ =>
    (items.evaluateItems_unplaces h).bind fun values =>
      Maps.forItems (fun item => Maps.inBlock
        ((declare_maps Diagnostic.samePlace_unplaced n item).bind fun _ =>
          executeAll_unplaces h body)) values
  | whileLoop condition body _ =>
    (condition.evaluateTruth_unplaces h).rounds (executeAll_unplaces h body).inBlock fuel
  | returns value _ => (value.evaluate_unplaces h).bind fun _ => maps_pure _

theorem executeAll_unplaces (h : Caller.Maps Callable.unplaced Diagnostic.unplaced caller caller') :
    ∀ stmts : List Stmt, (executeAll host caller fuel stmts).Unplaces
      (executeAll host caller' fuel (allUnplaced stmts))
  | [] => maps_pure _
  | stmt :: stmts => (execute_unplaces h stmt).unlessReturned (executeAll_unplaces h stmts)

end

end Stmt

/-! ## Programs -/

namespace Run

/-- A call runs a body without places on the other machine. The induction is on the fuel. -/
theorem call_unplaces (host : Host) : ∀ fuel,
    Caller.Maps Callable.unplaced Diagnostic.unplaced (call host fuel) (call host fuel)
  | 0, _, _, _, _, _ => maps_exhausted
  | fuel + 1, n, arguments, _, _, h => by
    refine maps_look_bind (Machine.lookupFunction_mapCallables h n arguments.length)
      fun callable => ?_
    cases callable with
    | print => exact print_maps _
    | native answer => exact maps_ofExcept rfl
    | method m scope =>
      refine (Maps.inScope ?_ scope).bind fun _ => maps_pure _
      exact (declareParameters_maps Diagnostic.samePlace_unplaced m.parameters arguments).bind
        fun _ => Stmt.executeAll_unplaces (call_unplaces host fuel) m.body

theorem defineFields_unplaces (host : Host) (fuel : Nat) : ∀ fields : List Field,
    (defineFields host fuel fields).Unplaces (defineFields host fuel (fields.map Field.unplaced))
  | [] => maps_pure _
  | field :: fields =>
    (Expr.value_unplaces (call_unplaces host fuel) field.value).bind fun value =>
      (declareInRoot_maps Diagnostic.samePlace_unplaced field.name value).bind fun _ =>
        defineFields_unplaces host fuel fields

theorem defineMethods_unplaces : ∀ methods : List Method,
    (defineMethods methods).Unplaces (defineMethods (methods.map Method.unplaced))
  | [] => maps_pure _
  | method :: methods =>
    (declareFunction_maps Diagnostic.samePlace_unplaced method.name method.parameters.length
      (.method method Scopes.root)).bind fun _ => defineMethods_unplaces methods

/-- To run an unplaced program is to run the program and forget the places. -/
theorem program_unplaces (host : Host) (fuel : Nat) (p : Program) :
    (program host fuel p).Unplaces (program host fuel p.unplaced) :=
  (defineFields_unplaces host fuel p.fields).bind fun _ =>
    (defineMethods_unplaces p.methods).bind fun _ =>
      call_unplaces host fuel _ _ Diagnostic.samePlace_unplaced

/-- Programs that are the same up to layout come to the same on machines that are so. -/
theorem unplaced_program {p q : Program} (h : p.unplaced = q.unplaced) (host : Host) (fuel : Nat)
    {m n : Machine} (hmn : m.unplaced = n.unplaced) :
    (program host fuel p m).unplaced = (program host fuel q n).unplaced := by
  rw [(program_unplaces host fuel p).unplaced_eq m, (program_unplaces host fuel q).unplaced_eq n,
    h, hmn]

end Run

namespace Program

/-- **Layout changes nothing.** Tokens of the same kinds and values, wherever they stand and
whatever the files are called, are read as the same program, up to its spans, or there is the same
fault. Whatever the checker is, the two programs leave it alike, get the same annotations and the
same verdict. They are emitted as the same text or with the same fault. And whether they are run as
they were read or as they were checked, on machines that are the same, they come to the same value
or fault, print the same and leave the same variables behind. Only the places of
faults may differ. -/
theorem layout_changes_nothing {tokens tokens' : List Token} (file file' : String)
    (h : tokens.map Token.word = tokens'.map Token.word) :
    unplacedResult unplaced (parse tokens file) = unplacedResult unplaced (parse tokens' file') ∧
    ∀ p q, parse tokens file = .ok p → parse tokens' file' = .ok q →
      ∀ c : Checker,
        Checker.unplaced unplaced (p.check c) = Checker.unplaced unplaced (q.check c) ∧
        unplacedResult id (p.check c).2.tree.java = unplacedResult id (q.check c).2.tree.java ∧
        ∀ (host : Host) (fuel : Nat) (m n : Machine), m.unplaced = n.unplaced →
          m.printed = n.printed ∧
          (∀ id, m.scopes.bindings id = n.scopes.bindings id) ∧
          (Run.program host fuel p m).unplaced = (Run.program host fuel q n).unplaced ∧
          (Run.program host fuel (p.check c).2.tree m).unplaced =
            (Run.program host fuel (q.check c).2.tree n).unplaced := by
  have htokens : tokens.map Token.unplaced = tokens'.map Token.unplaced := by
    have hword : Token.unplaced = (fun w : Word => (⟨w.1, w.2, default⟩ : Token)) ∘ Token.word :=
      rfl
    rw [hword, ← List.map_map, ← List.map_map, h]
  have hread := parse_unplaced htokens file file'
  refine ⟨hread, fun p q hp hq c => ?_⟩
  rw [hp, hq] at hread
  have hpq : p.unplaced = q.unplaced := Except.ok.inj hread
  have hcheck : Checker.unplaced unplaced (p.check c) = Checker.unplaced unplaced (q.check c) := by
    rw [← p.check_unplaced c, ← q.check_unplaced c, hpq]
  have htree : (p.check c).2.tree.unplaced = (q.check c).2.tree.unplaced :=
    congrArg (·.2.tree) hcheck
  refine ⟨hcheck, by rw [← java_unplaced, ← java_unplaced, htree], fun host fuel m n hmn =>
    ⟨(congrArg Machine.printed hmn :), fun id => ?_, Run.unplaced_program hpq host fuel hmn,
      Run.unplaced_program htree host fuel hmn⟩⟩
  rw [← m.bindings_unplaced, hmn, n.bindings_unplaced]

/-- Tokens of a program that returns a variable that it does not have, each at the place that is
given for its number: `DEF main(): Integer DO RETURN y; END`. -/
def returning (place : Nat → Span) : List Token :=
  [⟨.defWord, "DEF", place 0⟩, ⟨.identifier, "main", place 1⟩, ⟨.openParen, "(", place 2⟩,
    ⟨.closeParen, ")", place 3⟩, ⟨.colon, ":", place 4⟩, ⟨.identifier, "Integer", place 5⟩,
    ⟨.doWord, "DO", place 6⟩, ⟨.returnWord, "RETURN", place 7⟩, ⟨.identifier, "y", place 8⟩,
    ⟨.semicolon, ";", place 9⟩, ⟨.endWord, "END", place 10⟩, ⟨.eof, "EOF", place 11⟩]

theorem returning_alike :
    let here := returning fun i => ⟨⟨i, "a.txt"⟩, ⟨i + 1, "a.txt"⟩⟩
    let there := returning fun i => ⟨⟨100 - i, "b.txt"⟩, ⟨7, "c.txt"⟩⟩
    here.map Token.word = there.map Token.word ∧
      ∃ p q, parse here "a.txt" = .ok p ∧ parse there "b.txt" = .ok q ∧
        (p.check .initial).2.verdict = .error ⟨.undefinedName "y", ⟨8, "a.txt"⟩⟩ ∧
        unplacedResult id (p.check .initial).2.verdict =
          unplacedResult id (q.check .initial).2.verdict := by
  intro here there
  have hwords : here.map Token.word = there.map Token.word := rfl
  obtain ⟨hread, hsame⟩ := layout_changes_nothing "a.txt" "b.txt" hwords
  have hhere : (parse here "a.txt").toOption.isSome = true := by decide +kernel
  rcases hp : parse here "a.txt" with d | p
  · rw [hp] at hhere
    cases hhere
  rcases hq : parse there "b.txt" with d | q
  · rw [hp, hq] at hread
    cases hread
  obtain ⟨hcheck, -⟩ := hsame p q hp hq .initial
  refine ⟨hwords, p, q, rfl, rfl, ?_, congrArg (·.2.verdict) hcheck⟩
  have hverdict : (parse here "a.txt").map (fun p => (p.check .initial).2.verdict) =
      .ok (.error ⟨.undefinedName "y", ⟨8, "a.txt"⟩⟩) := by decide +kernel
  rw [hp] at hverdict
  exact Except.ok.inj hverdict

end Program

end TeachLang
