import TeachLang.Proofs.Discipline
import TeachLang.Proofs.Types

/-!
# Runs keep a discipline

Under a lawful discipline, whatever a typed tree does on a machine that stands among typed scopes
comes to an end that its type promises, or to a diagnostic that is tolerated, and the machine
stands where it stood. This is shown for expressions and for places, then for statements, and last
for calls, by induction on the fuel.
-/

namespace TeachLang

namespace Discipline

variable {D : Discipline} {Δ : Functions} {t : Scopes Ty Callable} {id : Nat} {m : Machine}
  {caller : Caller}

/-- A machine stands in a place and the result is good. -/
abbrev Reaches (D : Discipline) (Δ : Functions) (t : Scopes Ty Callable) (id : Nat) {α : Type}
    (good : α → Prop) (result : α) (last : Machine) : Prop :=
  D.Stands Δ t id last ∧ good result

/-- A run comes to a good result, or to a diagnostic that is tolerated, and the machine stays in its
place. -/
abbrev Keeps (D : Discipline) (Δ : Functions) (t : Scopes Ty Callable) (id : Nat) {α : Type}
    (good : α → Prop) (r : Run α) (m : Machine) : Prop :=
  r.Ensures m (D.Reaches Δ t id good) (fun d _ => D.tolerates d)

theorem keeps_bind {α β : Type} {good : α → Prop} {good' : β → Prop} {first : Run α}
    {next : α → Run β} (h : D.Keeps Δ t id good first m)
    (hnext : ∀ result last, D.Stands Δ t id last → good result →
      D.Keeps Δ t id good' (next result) last) : D.Keeps Δ t id good' (first >>= next) m :=
  Run.Ensures.bind (h.mono (fun result last hlast => hnext result last hlast.1 hlast.2)
    fun _ _ h => h)

theorem keeps_pure {α : Type} {good : α → Prop} {result : α} (h : D.Stands Δ t id m)
    (hgood : good result) : D.Keeps Δ t id good (pure result) m :=
  Run.ensures_pure ⟨h, hgood⟩

theorem keeps_ofExcept {α : Type} {good : α → Prop} {result : Except Diagnostic α}
    (h : D.Stands Δ t id m) (hresult : Answers good D.tolerates result) :
    D.Keeps Δ t id good (Run.ofExcept result) m := by
  refine Run.ensures_ofExcept ?_
  cases result with
  | ok result => exact ⟨h, hresult⟩
  | error d => exact hresult

/-! ## Expressions -/

/-- What conforms to a type of truth values can be asked for its truth. -/
theorem conforms_boolean (hD : D.Lawful) {a : Ty} {value : Value} (ha : a.name = Ty.boolean.name)
    (h : D.conforms a value) : D.conforms .boolean value :=
  hD.accepts
    ⟨hD.closed.known_builtin (by simp [Ty.builtins]), Ty.isAssignable_iff.mpr (.inl ha.symm)⟩ h

/-- The right operand of `AND` and `OR` gives the result where the left one leaves it open. -/
theorem truth_keeps (hD : D.Lawful) {b : Ty} {right : Run Value} (hb : b.name = Ty.boolean.name)
    (h : D.Keeps Δ t id (D.conforms b) right m) (position : Position) :
    D.Keeps Δ t id (D.conforms .boolean)
      (do return .boolean (← .ofExcept ((← right).truth position))) m := by
  refine keeps_bind h fun value last hlast hvalue => ?_
  have htruth := hD.truth (conforms_boolean hD hb hvalue) position
  refine keeps_bind (keeps_ofExcept hlast htruth) fun x last hlast _ => ?_
  exact keeps_pure hlast (hD.literal (.boolean x))

/-- An operator keeps the discipline if the run for its right operand does. -/
theorem evaluateBinary_keeps (hD : D.Lawful) {operator : Operator} {a b ty : Ty} {left : Value}
    {right : Run Value} {position : Position} (h : D.Stands Δ t id m)
    (hoperands : D.operands operator a b) (hty : operator.result? a b = some ty)
    (hleft : D.conforms a left)
    (hright : ∀ mid, D.Stands Δ t id mid → D.Keeps Δ t id (D.conforms b) right mid) :
    D.Keeps Δ t id (D.conforms ty) (Expr.evaluateBinary operator left right position) m := by
  have happly : D.Keeps Δ t id (D.conforms ty)
      (do .ofExcept (Value.apply operator left (← right) position)) m :=
    keeps_bind (hright m h) fun value last hlast hvalue =>
      keeps_ofExcept hlast (hD.apply hoperands hty hleft hvalue position)
  -- AND and OR look at the left operand first, and may leave out the right one
  cases operator
  case and =>
    obtain ⟨ha, hb, rfl⟩ := Operator.result?_logic (.inl rfl) hty
    have htruth := hD.truth (conforms_boolean hD ha hleft) position
    refine keeps_bind (keeps_ofExcept h htruth) fun x last hlast _ => ?_
    cases x with
    | true => exact truth_keeps hD hb (hright last hlast) position
    | false => exact keeps_pure hlast (hD.literal (.boolean false))
  case or =>
    obtain ⟨ha, hb, rfl⟩ := Operator.result?_logic (.inr rfl) hty
    have htruth := hD.truth (conforms_boolean hD ha hleft) position
    refine keeps_bind (keeps_ofExcept h htruth) fun x last hlast _ => ?_
    cases x with
    | true => exact keeps_pure hlast (hD.literal (.boolean true))
    | false => exact truth_keeps hD hb (hright last hlast) position
  all_goals exact happly

mutual

/-- The value of an expression conforms to its type. -/
theorem evaluate_keeps (hD : D.Lawful) (hcaller : D.Serves Δ caller) :
    ∀ {e : Expr} {m : Machine} {ty : Ty}, D.Stands Δ t id m →
      e.HasTy D.toRegime Δ (t.view id) ty →
      D.Keeps Δ t id (D.conforms ty) (e.evaluate D.host caller) m
  | .literal value _ _, m, ty, h, he => by
    cases he
    rw [Expr.evaluate]
    exact keeps_pure h (hD.literal value)
  | .group inner _ _, m, ty, h, he => by
    cases he with
    | group hinner =>
      rw [Expr.evaluate]
      exact evaluate_keeps hD hcaller h hinner
  | .binary operator left right _ span, m, ty, h, he => by
    cases he with
    | binary hleft hright hoperands hty =>
      rw [Expr.evaluate]
      refine keeps_bind (evaluate_keeps hD hcaller h hleft) fun value last hlast hvalue => ?_
      exact evaluateBinary_keeps hD hlast hoperands hty hvalue fun mid hmid =>
        evaluate_keeps hD hcaller hmid hright
  | .name n _ span, m, ty, h, he => by
    cases he with
    | name hty =>
      rw [Expr.evaluate]
      obtain ⟨value, hvalue, hconforms⟩ := h.lookup hty span.start
      refine Run.ensures_look ?_
      rw [hvalue]
      exact ⟨h, hconforms⟩
  | .member receiver n _ span, m, ty, h, he => by
    cases he with
    | member hreceiver hknown hfield =>
      rw [Expr.evaluate]
      refine keeps_bind (evaluate_keeps hD hcaller h hreceiver) fun value last hlast hvalue => ?_
      exact keeps_ofExcept hlast (hD.field hknown hfield hvalue span.start)
  | .call n arguments _ span, m, ty, h, he => by
    cases he with
    | call harguments hlookup haccepts =>
      rw [Expr.evaluate]
      refine keeps_bind (evaluateAll_keeps hD hcaller h harguments)
        fun values last hlast hvalues => ?_
      -- the machine looks the function up by the number of values, the checker by that of arguments
      have hlength : values.length = arguments.length :=
        hvalues.length_eq.symm.trans harguments.length_eq.symm
      rw [← hlength] at hlookup
      exact hcaller hlast hlookup (hD.accepts_all haccepts hvalues)
  | .methodCall receiver n arguments _ span, m, ty, h, he => by
    cases he with
    | methodCall hreceiver hknown harguments hmethod haccepts =>
      rw [Expr.evaluate]
      refine keeps_bind (evaluate_keeps hD hcaller h hreceiver) fun value last hlast hvalue => ?_
      refine keeps_bind (evaluateAll_keeps hD hcaller hlast harguments)
        fun values last hlast hvalues => ?_
      have hlength : values.length = arguments.length :=
        hvalues.length_eq.symm.trans harguments.length_eq.symm
      rw [← hlength] at hmethod
      exact keeps_ofExcept hlast
        (hD.method hknown hmethod hvalue (hD.accepts_all haccepts hvalues) span.start)

/-- The values of expressions conform to their types. -/
theorem evaluateAll_keeps (hD : D.Lawful) (hcaller : D.Serves Δ caller) :
    ∀ {es : List Expr} {m : Machine} {tys : List Ty}, D.Stands Δ t id m →
      Expr.HaveTys D.toRegime Δ (t.view id) es tys →
      D.Keeps Δ t id (List.Forall₂ D.conforms tys) (Expr.evaluateAll D.host caller es) m
  | [], m, tys, h, he => by
    cases he
    rw [Expr.evaluateAll]
    exact keeps_pure h .nil
  | e :: es, m, tys, h, he => by
    cases he with
    | cons hfirst hothers =>
      rw [Expr.evaluateAll]
      refine keeps_bind (evaluate_keeps hD hcaller h hfirst) fun value last hlast hvalue => ?_
      refine keeps_bind (evaluateAll_keeps hD hcaller hlast hothers)
        fun values last hlast hvalues => ?_
      exact keeps_pure hlast (.cons hvalue hvalues)

end

/-- A condition is true or false. -/
theorem evaluateTruth_keeps (hD : D.Lawful) (hcaller : D.Serves Δ caller) {e : Expr} {ty : Ty}
    (h : D.Stands Δ t id m) (he : e.HasTy D.toRegime Δ (t.view id) ty)
    (haccepts : D.Accepts .boolean ty) :
    D.Keeps Δ t id (fun _ => True) (e.evaluateTruth D.host caller) m :=
  keeps_bind (evaluate_keeps hD hcaller h he) fun _ _ hlast hvalue =>
    keeps_ofExcept hlast (hD.truth (hD.accepts haccepts hvalue) e.span.start)

theorem evaluateItems_eq (host : Host) (caller : Caller) (e : Expr) :
    e.evaluateItems host caller =
      (do .ofExcept ((← e.evaluate host caller).elements e.span.start)) := by
  unfold Expr.evaluateItems
  congr 1
  funext value
  cases value <;> rfl

/-- A loop runs over whole numbers. -/
theorem evaluateItems_keeps (hD : D.Lawful) (hcaller : D.Serves Δ caller) {e : Expr} {ty : Ty}
    (h : D.Stands Δ t id m) (he : e.HasTy D.toRegime Δ (t.view id) ty)
    (haccepts : D.Accepts .integerIterable ty) :
    D.Keeps Δ t id (∀ item ∈ ·, D.conforms .integer item) (e.evaluateItems D.host caller) m := by
  rw [evaluateItems_eq]
  exact keeps_bind (evaluate_keeps hD hcaller h he) fun _ _ hlast hvalue =>
    keeps_ofExcept hlast (hD.elements (hD.accepts haccepts hvalue) e.span.start)

/-! ## Places -/

/-- The types of fields lead from one type along a path to another. -/
def Along (R : Regime) : Ty → Value.Path → Ty → Prop
  | ty, [], last => ty = last
  | ty, (n, _) :: path, last => R.known ty ∧ ∃ v, ty.field? n = some v ∧ Along R v.ty path last

theorem Along.field {R : Regime} {path : Value.Path} {ty owner : Ty} {n : String} {v : Variable}
    {position : Position} (h : Along R ty path owner) (hknown : R.known owner)
    (hv : owner.field? n = some v) : Along R ty (path ++ [(n, position)]) v.ty := by
  induction path generalizing ty with
  | nil =>
    obtain rfl := h
    exact ⟨hknown, v, hv, rfl⟩
  | cons step path ih =>
    obtain ⟨hty, w, hw, hrest⟩ := h
    exact ⟨hty, w, hw, ih hrest⟩

/-- What designates a place with a type is a path of fields from a variable to that type. -/
theorem along_of_place? {R : Regime} {Γ : Context} :
    ∀ {e : Expr} {ty : Ty} {place : Place}, e.HasTy R Δ Γ ty → e.place? = some place →
      ∃ start, Γ.tyOf? place.name = some start ∧ Along R start place.path ty
  | .name n _ span, ty, place, he, hplace => by
    cases he with
    | name hty =>
      obtain rfl := Option.some.inj hplace
      exact ⟨_, hty, rfl⟩
  | .member receiver n _ span, ty, place, he, hplace => by
    cases he with
    | member hreceiver hknown hfield =>
      obtain ⟨inner, hinner, rfl⟩ := Option.map_eq_some_iff.mp hplace
      obtain ⟨start, hstart, halong⟩ := along_of_place? hreceiver hinner
      exact ⟨start, hstart, halong.field hknown hfield⟩

/-- A field takes every value that conforms to its type. -/
theorem setField_conforms (hD : D.Lawful) {owner : Ty} {n : String} {v : Variable}
    {value new : Value} (hknown : D.known owner) (hv : owner.field? n = some v)
    (hvalue : D.conforms owner value) (hnew : D.conforms v.ty new) (position : Position) :
    Answers (D.conforms owner) D.tolerates (value.setField n new position) := by
  have hfield := hD.field hknown hv hvalue position
  rw [Value.field] at hfield
  rw [Value.setField]
  cases hpart : value.field? n with
  | none =>
    rw [hpart] at hfield
    exact hfield
  | some part => exact hD.withField hknown hv hvalue hpart hnew

/-- Where the part at the end of a path can be changed, the whole can. -/
theorem change_conforms (hD : D.Lawful) {f : Value → Except Diagnostic Value} {last : Ty}
    (hf : ∀ part, D.conforms last part → Answers (D.conforms last) D.tolerates (f part)) :
    ∀ {path : Value.Path} {ty : Ty} {value : Value}, Along D.toRegime ty path last →
      D.conforms ty value → Answers (D.conforms ty) D.tolerates (Value.change f path value)
  | [], ty, value, halong, hvalue => by
    obtain rfl := halong
    exact hf value hvalue
  | (n, position) :: path, ty, value, ⟨hknown, v, hv, hrest⟩, hvalue => by
    have hfield := hD.field hknown hv hvalue position
    rw [Value.field] at hfield
    rw [Value.change, Value.field]
    cases hpart : value.field? n with
    | none =>
      rw [hpart] at hfield
      exact hfield
    | some part =>
      rw [hpart] at hfield
      have hchange := change_conforms hD hf hrest hfield
      change Answers _ _ ((Value.change f path part).bind _)
      cases hnew : Value.change f path part with
      | error d =>
        rw [hnew] at hchange
        exact hchange
      | ok new =>
        rw [hnew] at hchange
        exact hD.withField hknown hv hvalue hpart hchange

/-- A place that a path leads to is changed as its part is. -/
theorem place_keeps (hD : D.Lawful) {place : Place} {start last : Ty}
    {f : Value → Except Diagnostic Value} (h : D.Stands Δ t id m)
    (hstart : Context.tyOf? (t.view id) place.name = some start)
    (halong : Along D.toRegime start place.path last)
    (hf : ∀ part, D.conforms last part → Answers (D.conforms last) D.tolerates (f part)) :
    D.Keeps Δ t id (fun _ => True) (place.change f) m := by
  refine Run.ensures_change ?_
  obtain ⟨value, hvalue, hconforms⟩ := h.lookup hstart place.position
  have hchange := change_conforms hD hf halong hconforms
  rw [hvalue]
  change Answers _ _ ((Value.change f place.path value).bind _)
  cases hnew : Value.change f place.path value with
  | error d =>
    rw [hnew] at hchange
    exact hchange
  | ok new =>
    rw [hnew] at hchange
    obtain ⟨last, hassign, hlast⟩ := h.assign hstart hchange place.position
    change Answers _ _ (m.assign place.name new place.position)
    rw [hassign]
    exact ⟨hlast, trivial⟩

/-- An assignment keeps every variable with a value of its type. -/
theorem assign_keeps (hD : D.Lawful) (hcaller : D.Serves Δ caller) {target e : Expr} {a b : Ty}
    (h : D.Stands Δ t id m) (haccess : target.isAccess)
    (htarget : target.HasTy D.toRegime Δ (t.view id) a)
    (he : e.HasTy D.toRegime Δ (t.view id) b) (haccepts : D.Accepts a b) :
    D.Keeps Δ t id (fun _ => True) (target.assign D.host caller e) m := by
  cases htarget with
  | @name n v span hty =>
    refine keeps_bind (evaluate_keeps hD hcaller h he) fun value last hlast hvalue => ?_
    refine Run.ensures_change ?_
    obtain ⟨next, hassign, hnext⟩ := hlast.assign hty (hD.accepts haccepts hvalue) span.start
    rw [hassign]
    exact ⟨hnext, trivial⟩
  | @member receiver n v owner span hreceiver hknown hfield =>
    refine keeps_bind (evaluate_keeps hD hcaller h he) fun value last hlast hvalue => ?_
    have hset : ∀ part, D.conforms owner part →
        Answers (D.conforms owner) D.tolerates (part.setField n value span.start) :=
      fun part hpart =>
        setField_conforms hD hknown hfield hpart (hD.accepts haccepts hvalue) span.start
    cases hplace : receiver.place? with
    | some place =>
      obtain ⟨start, hstart, halong⟩ := along_of_place? hreceiver hplace
      exact place_keeps hD hlast hstart halong hset
    | none =>
      -- the field of a temporary value: it is set and then dropped, so no variable changes
      refine keeps_bind (evaluate_keeps hD hcaller hlast hreceiver)
        fun temporary last hlast htemporary => ?_
      exact keeps_bind (keeps_ofExcept hlast (hset temporary htemporary)) fun _ _ hlast _ =>
        keeps_pure hlast trivial
  | _ => cases haccess

/-! ## Statements -/

/-- What is returned conforms to the result type. -/
def Good (D : Discipline) (result : Ty) : Flow → Prop
  | .next => True
  | .returned value => D.conforms result value

/-- Where a statement ends: behind it, with what it declares, or out of the method. -/
def After (D : Discipline) (Δ : Functions) (t : Scopes Ty Callable) (id : Nat) (result : Ty)
    (declared : Frame) : Flow → Machine → Prop
  | .next, last => D.Stands Δ (t.extend id declared) id last
  | .returned value, last => D.Stands Δ t id last ∧ D.conforms result value

/-- Statements end in the scope in which they started, which may have more variables then. -/
abbrev Ends (D : Discipline) (Δ : Functions) (t : Scopes Ty Callable) (id : Nat) (result : Ty)
    (r : Run Flow) (m : Machine) : Prop :=
  r.Ensures m
    (fun flow last => (∃ added, D.Stands Δ (t.extend id added) id last) ∧ D.Good result flow)
    (fun d _ => D.tolerates d)

variable {result : Ty}

/-- A statement that declares nothing leaves all scopes as they were. -/
theorem after_of_keeps {r : Run Flow} (h : D.Keeps Δ t id (D.Good result) r m) :
    r.Ensures m (D.After Δ t id result []) (fun d _ => D.tolerates d) := by
  refine h.mono ?_ fun _ _ h => h
  rintro (_ | value) last hlast
  · rw [After, Scopes.extend_nil]
    exact hlast.1
  · exact hlast

/-- Nothing is left of the scope of a block. -/
theorem block_keeps {inner : Run Flow} (h : D.Stands Δ t id m)
    (hinner : D.Stands Δ (t.child id) t.fresh (m.enter id) →
      D.Ends Δ (t.child id) t.fresh result inner (m.enter id)) :
    D.Keeps Δ t id (D.Good result) (Run.inBlock inner) m := by
  refine Run.ensures_inBlock ?_
  rw [h.scope]
  exact h.inScope (hinner (h.enter h.live))

theorem fresh_ne_root (ht : t.Rooted) : t.fresh ≠ Scopes.root := Nat.ne_of_gt ht.live

theorem view_child (h : D.Stands Δ t id m) : (t.child id).view t.fresh = [] :: t.view id :=
  h.rooted.view_child h.live

/-- The declaration of a variable leaves it behind with a value of its type. -/
theorem declaration_keeps (hD : D.Lawful) (hcaller : D.Serves Δ caller) {n : String} {ty : Ty}
    {value : Option Expr} (h : D.Stands Δ t id m) (hid : id ≠ Scopes.root)
    (hstarts : Expr.Starts D.toRegime Δ (t.view id) ty value)
    (hfresh : Context.Fresh n (t.view id)) (position : Position) :
    Run.Ensures (do
        let value ← value.elim (Run.pure .nil) (Expr.evaluate D.host caller)
        Run.change (·.declare n value position)
        return .next) m (D.After Δ t id result [(n, ty)]) (fun d _ => D.tolerates d) := by
  have hvalue : D.Keeps Δ t id (D.conforms ty)
      (value.elim (Run.pure .nil) (Expr.evaluate D.host caller)) m := by
    cases hstarts with
    | unset hunset hknown => exact keeps_pure h (hD.unset hunset hknown)
    | value he haccepts =>
      exact (evaluate_keeps hD hcaller h he).mono
        (fun _ _ hlast => ⟨hlast.1, hD.accepts haccepts hlast.2⟩) fun _ _ h => h
  refine Run.Ensures.bind (hvalue.mono ?_ fun _ _ h => h)
  rintro value mid ⟨hmid, hconforms⟩
  obtain ⟨last, hdeclare, hlast⟩ :=
    hmid.declare hfresh hconforms (hmid.provides.extend hid _) position
  refine Run.Ensures.bind (Run.ensures_change ?_)
  rw [hdeclare]
  exact (hlast : D.After Δ t id result [(n, ty)] .next last)

/-- The variable of a loop is declared in the scope of the round. -/
theorem item_stands {n : String} {item : Value} (h : D.Stands Δ t id m)
    (hitem : D.conforms .integer item) (position : Position) :
    ∃ inner, (m.enter id).declare n item position = .ok inner ∧
      D.Stands Δ ((t.child id).extend t.fresh [(n, .integer)]) t.fresh inner := by
  have henter := h.enter h.live
  refine henter.declare ?_ hitem (henter.provides.extend (fresh_ne_root h.rooted) _) position
  rw [view_child h]
  exact rfl

theorem view_item (h : D.Stands Δ t id m) (n : String) :
    ((t.child id).extend t.fresh [(n, .integer)]).view t.fresh = [(n, .integer)] :: t.view id := by
  rw [view_extend (h.rooted.child h.live) (by rw [Scopes.depth_child]; exact Nat.lt_succ_self _),
    view_child h]
  rfl

/-- A round of a loop that runs over whole numbers. -/
theorem round_keeps {body : Run Flow} {n : String} {item : Value} {position : Position}
    (h : D.Stands Δ t id m) (hitem : D.conforms .integer item)
    (hbody : ∀ mid, D.Stands Δ ((t.child id).extend t.fresh [(n, .integer)]) t.fresh mid →
      D.Ends Δ ((t.child id).extend t.fresh [(n, .integer)]) t.fresh result body mid) :
    D.Keeps Δ t id (D.Good result)
      (Run.inBlock do Run.change (·.declare n item position); body) m := by
  refine block_keeps h fun _ => ?_
  obtain ⟨inner, hdeclare, hinner⟩ := item_stands h hitem position
  refine Run.Ensures.bind (Run.ensures_change ?_)
  rw [hdeclare]
  refine (hbody inner hinner).mono ?_ fun _ _ h => h
  rintro flow last ⟨⟨added, hlast⟩, hgood⟩
  rw [Scopes.extend_extend] at hlast
  exact ⟨⟨_, hlast⟩, hgood⟩

/-- How a round ends is how the loop goes on. -/
theorem round_of_keeps {r : Run Flow} (h : D.Keeps Δ t id (D.Good result) r m) :
    r.Ensures m
      (fun flow mid => match flow with
        | .next => D.Stands Δ t id mid
        | .returned value => D.Reaches Δ t id (D.Good result) (.returned value) mid)
      (fun d _ => D.tolerates d) := by
  refine h.mono ?_ fun _ _ h => h
  rintro (_ | value) last hlast
  · exact hlast.1
  · exact hlast

mutual

/-- A statement that is typed ends with what it declares, or returns what conforms to the result
type. -/
theorem execute_after (hD : D.Lawful) (hcaller : D.Serves Δ caller) (hresult : D.nameable result)
    (fuel : Nat) :
    ∀ {stmt : Stmt} {t : Scopes Ty Callable} {id : Nat} {m : Machine}, D.Stands Δ t id m →
      id ≠ Scopes.root → stmt.Typed D.toRegime Δ result (t.view id) →
      (stmt.execute D.host caller fuel).Ensures m (D.After Δ t id result stmt.declared)
        (fun d _ => D.tolerates d)
  | .expression e _, t, id, m, h, hid, hs => by
    cases hs with
    | expression he =>
      rw [Stmt.execute]
      exact after_of_keeps (keeps_bind (evaluate_keeps hD hcaller h he) fun _ _ hlast _ =>
        keeps_pure hlast trivial)
  | .declaration n _ value _ span, t, id, m, h, hid, hs => by
    cases hs with
    | declaration hstarts hfresh =>
      rw [Stmt.execute]
      exact declaration_keeps hD hcaller h hid hstarts hfresh span.start
  | .assignment target value _, t, id, m, h, hid, hs => by
    cases hs with
    | assignment haccess htarget hvalue haccepts =>
      rw [Stmt.execute]
      exact after_of_keeps (keeps_bind (assign_keeps hD hcaller h haccess htarget hvalue haccepts)
        fun _ _ hlast _ => keeps_pure hlast trivial)
  | .conditional condition thenBody elseBody _, t, id, m, h, hid, hs => by
    cases hs with
    | conditional hcondition haccepts hthen helse =>
      rw [Stmt.execute]
      refine after_of_keeps (keeps_bind (evaluateTruth_keeps hD hcaller h hcondition haccepts)
        fun b mid hmid _ => ?_)
      cases b with
      | true =>
        refine block_keeps hmid fun henter => ?_
        rw [← view_child hmid] at hthen
        exact executeAll_ends hD hcaller hresult fuel henter (fresh_ne_root hmid.rooted) hthen
      | false =>
        refine block_keeps hmid fun henter => ?_
        rw [← view_child hmid] at helse
        exact executeAll_ends hD hcaller hresult fuel henter (fresh_ne_root hmid.rooted) helse
  | .forEach n items body span, t, id, m, h, hid, hs => by
    cases hs with
    | forEach hitems haccepts hbody =>
      rw [Stmt.execute]
      refine after_of_keeps (keeps_bind (evaluateItems_keeps hD hcaller h hitems haccepts)
        fun values mid hmid hvalues => ?_)
      -- each round starts where the loop did, for the scope of the round is gone behind it
      refine Run.ensures_forItems (fun m hm => ⟨hm, trivial⟩) (fun item hitem m hm => ?_) mid hmid
      refine round_of_keeps (round_keeps hm (hvalues item hitem) fun inner hinner => ?_)
      refine executeAll_ends hD hcaller hresult fuel hinner (fresh_ne_root hm.rooted) ?_
      rw [view_item hm]
      exact hbody
  | .whileLoop condition body _, t, id, m, h, hid, hs => by
    cases hs with
    | whileLoop hcondition haccepts hbody =>
      rw [Stmt.execute]
      -- what holds before every round is that the machine stands where the loop started
      refine after_of_keeps (Run.ensures_rounds (D.Stands Δ t id) ?_ ?_ fuel m h)
      · intro m hm
        exact (evaluateTruth_keeps hD hcaller hm hcondition haccepts).mono
          (fun b mid hmid => ⟨hmid.1, fun _ => ⟨hmid.1, trivial⟩⟩) fun _ _ h => h
      · intro m hm
        refine round_of_keeps (block_keeps hm fun henter => ?_)
        refine executeAll_ends hD hcaller hresult fuel henter (fresh_ne_root hm.rooted) ?_
        rw [view_child hm]
        exact hbody
  | .returns value _, t, id, m, h, hid, hs => by
    cases hs with
    | returns hvalue hreturned =>
      rw [Stmt.execute]
      exact after_of_keeps (keeps_bind (evaluate_keeps hD hcaller h hvalue)
        fun value last hlast hconforms =>
          keeps_pure hlast (hD.returned hreturned hresult hconforms))

/-- Statements that are typed end in their scope. -/
theorem executeAll_ends (hD : D.Lawful) (hcaller : D.Serves Δ caller) (hresult : D.nameable result)
    (fuel : Nat) :
    ∀ {stmts : List Stmt} {t : Scopes Ty Callable} {id : Nat} {m : Machine}, D.Stands Δ t id m →
      id ≠ Scopes.root → Stmt.AllTyped D.toRegime Δ result (t.view id) stmts →
      D.Ends Δ t id result (Stmt.executeAll D.host caller fuel stmts) m
  | [], t, id, m, h, hid, _ => by
    rw [Stmt.executeAll]
    refine Run.ensures_pure ⟨⟨[], ?_⟩, trivial⟩
    rw [Scopes.extend_nil]
    exact h
  | stmt :: stmts, t, id, m, h, hid, hs => by
    cases hs with
    | cons hfirst hothers =>
      rw [Stmt.executeAll]
      refine Run.ensures_unlessReturned
        ((execute_after hD hcaller hresult fuel h hid hfirst).mono ?_ fun _ _ h => h)
      rintro (_ | value) mid hmid
      -- the statements behind are typed under what this one declares
      · rw [← view_extend h.rooted h.live] at hothers
        refine (executeAll_ends hD hcaller hresult fuel hmid hid hothers).mono ?_ fun _ _ h => h
        rintro flow last ⟨⟨added, hlast⟩, hgood⟩
        rw [Scopes.extend_extend] at hlast
        exact ⟨⟨_, hlast⟩, hgood⟩
      · refine ⟨⟨[], ?_⟩, hmid.2⟩
        rw [Scopes.extend_nil]
        exact hmid.1

end

end Discipline

end TeachLang
