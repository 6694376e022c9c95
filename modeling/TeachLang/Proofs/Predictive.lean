import Mathlib.Logic.Relation
import TeachLang.Proofs.Spans

/-!
# What is expected next

A text can be recognized from left to right with a **stack** of what is still expected: tokens, and
**parts** of programs. A part on top of the stack is replaced by what it consists of, and the token
in front alone decides what that is (`Part.predict`); a token on top is compared with the one in
front. So there is no choice and no looking ahead by more than one token, and a state either moves
in one way (`step`) or is stuck.

What the recognizer does on its way (`Reaches`) depends on no token behind the one in front, which
`Reaches.split` says.
-/

namespace TeachLang

/-- What is wrong with a token that is not expected, with perhaps a word on what should stand
there. -/
def Token.unexpected (token : Token) (message : Option String) : Diagnostic :=
  match message with
  | none => ⟨.unexpectedToken token.value, token.span.start⟩
  | some message => ⟨.unexpectedTokenDetailed token.value message, token.span.start⟩

/-- What is wrong with a token that is a constant by its kind and does not denote one. -/
def Token.flaw? (token : Token) : Option Diagnostic :=
  if token.kind ∈ [.integer, .decimal, .character] then
    match token.literal with
    | .ok _ => none
    | .error diagnostic => some diagnostic
  else none

/-- A kind of which a token ahead says nothing but its kind: it neither closes the text nor can fail
to denote a constant. -/
def Kind.Plain (kind : Kind) : Prop := kind ∉ [.eof, .integer, .decimal, .character]

instance (kind : Kind) : Decidable kind.Plain := inferInstanceAs (Decidable (kind ∉ _))

theorem Kind.Plain.ne_eof {kind : Kind} (h : kind.Plain) : kind ≠ .eof := fun heof =>
  h (heof ▸ List.mem_cons_self)

/-- Operators carry nothing that could be malformed. -/
theorem Kind.plain_of_isOperator {kind : Kind} (h : (Operator.ofKind? kind).isSome = true) :
    kind.Plain := fun hmem => by
  simp only [List.mem_cons, List.not_mem_nil, or_false] at hmem
  rcases hmem with rfl | rfl | rfl | rfl <;> cases h

namespace Token

variable {token : Token} {diagnostic : Diagnostic}

/-- A token that denotes no constant is at fault where it starts. -/
theorem literal_position (h : token.literal = .error diagnostic) :
    diagnostic.position = token.span.start := by
  have hblames := token.literal_blames (P := fun position => position = token.span.start) rfl
  rw [h] at hblames
  exact hblames.2

theorem flaw?_position (h : token.flaw? = some diagnostic) :
    diagnostic.position = token.span.start := by
  rw [flaw?] at h
  split at h
  · cases hliteral : token.literal with
    | ok value =>
      rw [hliteral] at h
      cases h
    | error flaw =>
      rw [hliteral] at h
      obtain rfl : flaw = diagnostic := Option.some.inj h
      exact literal_position hliteral
  · cases h

theorem flaw?_of_literal {value : Literal} (h : token.literal = .ok value) :
    token.flaw? = none := by
  rw [flaw?, h]
  exact ite_self none

/-- Plain tokens have no flaw. -/
theorem flaw?_of_plain (h : token.kind.Plain) : token.flaw? = none :=
  if_neg fun hmem => h (List.mem_cons_of_mem _ hmem)

/-- Only numbers and characters can be of a kind that denotes a constant and not denote one. -/
theorem flaw?_of_not_literal (hkind : token.kind.startsOperand = true)
    (hname : token.kind ≠ .identifier) (hparen : token.kind ≠ .openParen)
    (h : token.literal = .error diagnostic) : token.flaw? = some diagnostic := by
  obtain ⟨kind, value, span⟩ := token
  cases kind
  case integer | decimal | character => rw [flaw?, h]; rfl
  case identifier => exact absurd rfl hname
  case openParen => exact absurd rfl hparen
  case nilWord | trueWord | falseWord | string => cases h
  all_goals cases hkind

end Token

namespace Predictive

/-- Parts of programs, each named for where it stands. -/
inductive Part where
  /-- an expression at a power -/
  | expression (power : Power)
  /-- arguments perhaps, behind a name, and operators -/
  | afterName (power : Power)
  /-- operators with their right operands, behind an operand -/
  | operators (power : Power)
  /-- the arguments of a call, behind the opening parenthesis -/
  | firstArgument
  /-- further arguments, with the closing parenthesis -/
  | moreArguments
  /-- a colon and the name of a type, perhaps -/
  | typeMark (message : String)
  /-- the sign of assignment and a value, perhaps -/
  | firstValue
  /-- a statement -/
  | statement
  /-- statements and the word that closes them -/
  | body
  /-- the first body of a conditional and whatever closes the conditional -/
  | branches
  /-- the parameters of a method, behind the opening parenthesis -/
  | firstParameter
  /-- further parameters, with the closing parenthesis -/
  | moreParameters
  /-- fields, and then methods -/
  | fields
  /-- methods up to the end of the text -/
  | methods
  deriving DecidableEq

/-- What can be expected: a token of a kind, with perhaps a word on it, or a part. -/
inductive Item where
  /-- a token -/
  | token (kind : Kind) (message : Option String)
  /-- a part -/
  | part (part : Part)
  deriving DecidableEq

namespace Item

/-- A token on which there is nothing to say. -/
abbrev word (kind : Kind) : Item := token kind none

/-- A name. -/
abbrev name (message : String) : Item := token .identifier (some message)

/-- An expression that is no operand. -/
abbrev whole : Item := part (.expression .default)

end Item

open Item in
/-- What an expression consists of if it begins with a token of a kind. -/
def operand (power : Power) : Kind → Option (List Item)
  | .identifier => some [word .identifier, part (.afterName power)]
  | .openParen =>
    some [word .openParen, whole, token .closeParen (some "expected `)` to close the group"),
      part (.operators power)]
  | kind => if kind.startsOperand then some [word kind, part (.operators power)] else none

namespace Part

open Item

/-- The declaration of a variable. -/
def declaration : List Item :=
  [word .letWord, name "expected identifier during variable declaration",
    part (typeMark "expected a type name"), part firstValue, word .semicolon]

/-- A conditional. -/
def conditional : List Item := [word .ifWord, whole, word .doWord, part branches]

/-- A loop over items. -/
def forEach : List Item :=
  [word .forWord, name "expected a loop variable", word .inWord, whole, word .doWord, part body]

/-- A loop under a condition. -/
def whileLoop : List Item := [word .whileWord, whole, word .doWord, part body]

/-- A return from a method. -/
def returns : List Item := [word .returnWord, whole, word .semicolon]

/-- An expression as a statement, or an assignment to it. -/
def expressionOrAssignment : List Item := [whole, part firstValue, word .semicolon]

/-- What a statement consists of if it begins with a token of a kind. -/
def statementForm : Kind → List Item
  | .letWord => declaration
  | .ifWord => conditional
  | .forWord => forEach
  | .whileWord => whileLoop
  | .returnWord => returns
  | _ => expressionOrAssignment

/-- A field. -/
def field : List Item :=
  [word .letWord, name "expected identifier during field declaration",
    token .colon (some "fields require an explicit type"), name "expected a type name",
    part firstValue, word .semicolon]

/-- A parameter and what can follow it. -/
def parameter : List Item :=
  [name "expected a parameter name", word .colon, name "expected a type name", part moreParameters]

/-- A method. -/
def method : List Item :=
  [word .defWord, name "expected identifier during method declaration", word .openParen,
    part firstParameter, part (typeMark "expected a return type name"), word .doWord, part body]

/-- What a part consists of, with a token of a kind in front; none if no such part begins with that
token. -/
def predict : Part → Kind → Option (List Item)
  | expression power, kind => operand power kind
  | afterName power, kind =>
    some (if kind = .openParen then [word .openParen, part firstArgument, part (operators power)]
      else [part (operators power)])
  | operators power, kind =>
    if power < kind.power then
      if kind = .dot then
        some [word .dot, name "expected a field or method name after `.`", part (afterName power)]
      else if (Operator.ofKind? kind).isSome then
        some [word kind, part (expression kind.power), part (operators power)]
      else none
    else some []
  | firstArgument, kind =>
    some (if kind = .closeParen then [word .closeParen] else [whole, part moreArguments])
  | moreArguments, kind =>
    some (if kind = .comma then [word .comma, whole, part moreArguments]
      else [token .closeParen (some "expected `,` or `)` in argument list")])
  | typeMark message, kind => some (if kind = .colon then [word .colon, name message] else [])
  | firstValue, kind => some (if kind = .assignment then [word .assignment, whole] else [])
  | statement, kind => some (statementForm kind)
  | body, kind =>
    if kind = .endWord then some [word .endWord]
    else if kind = .eof then none
    else some [part statement, part body]
  | branches, kind =>
    if kind = .elseWord then some [word .elseWord, part body]
    else if kind = .endWord then some [word .endWord]
    else if kind = .eof then none
    else some [part statement, part branches]
  | firstParameter, kind => some (if kind = .closeParen then [word .closeParen] else parameter)
  | moreParameters, kind =>
    some (if kind = .comma then word .comma :: parameter
      else [token .closeParen (some "expected `,` or `)` in parameter list")])
  | fields, kind => some (if kind = .letWord then field ++ [part fields] else [part methods])
  | methods, kind =>
    if kind = .eof then some []
    else if kind = .defWord then some (method ++ [part methods])
    else none

/-- A body goes on with a statement until a word closes it. -/
theorem predict_body_more {kind : Kind} (hend : kind ≠ .endWord) (heof : kind ≠ .eof) :
    body.predict kind = some [part statement, part body] :=
  (if_neg hend).trans (if_neg heof)

theorem predict_branches_more {kind : Kind} (helse : kind ≠ .elseWord) (hend : kind ≠ .endWord)
    (heof : kind ≠ .eof) : branches.predict kind = some [part statement, part branches] :=
  (if_neg helse).trans ((if_neg hend).trans (if_neg heof))

/-- The word on what should stand where a part cannot begin. -/
def message? : Part → Kind → Option String
  | expression _, _ => some "expected an expression"
  | body, _ | branches, _ => some "expected END before the end of input"
  | methods, .letWord => some "fields must be declared before methods"
  | methods, _ => some "expected a field (LET) or a method (DEF)"
  | _, _ => none

end Part

/-- What is still expected, and the tokens in front. -/
abbrev State := List Item × List Token

/-- The next state. There is none if nothing is expected anymore, if nothing is in front, or if
what is in front cannot be what is expected. -/
def step : State → Option State
  | (.token kind _ :: stack, token :: rest) =>
    if token.kind = kind ∧ token.flaw? = none then some (stack, rest) else none
  | (.part p :: stack, token :: rest) =>
    (p.predict token.kind).map fun items => (items ++ stack, token :: rest)
  | _ => none

/-- The fault of a token that cannot be what is expected. -/
def Item.blame : Item → Token → Diagnostic
  | .token kind message, found =>
    if found.kind = kind then found.flaw?.getD (found.unexpected message)
    else found.unexpected message
  | .part p, found => found.unexpected (p.message? found.kind)

/-- One state comes from another in some number of steps. -/
abbrev Reaches : State → State → Prop := Relation.ReflTransGen fun s t => step s = some t

/-- A state leads to where a token cannot be what is expected, which is a fault. -/
def Fails (s : State) (diagnostic : Diagnostic) : Prop :=
  ∃ item stack token rest, Reaches s (item :: stack, token :: rest) ∧
    step (item :: stack, token :: rest) = none ∧ diagnostic = item.blame token

variable {s t u : State} {item : Item} {stack stack' : List Item} {tokens rest : List Token}
  {token : Token} {kind : Kind} {message : Option String} {p : Part} {items : List Item}

/-! ## Steps -/

theorem step_token (hkind : token.kind = kind) (hflaw : token.flaw? = none) :
    step (.token kind message :: stack, token :: rest) = some (stack, rest) :=
  if_pos ⟨hkind, hflaw⟩

theorem step_part (h : p.predict token.kind = some items) :
    step (.part p :: stack, token :: rest) = some (items ++ stack, token :: rest) :=
  congrArg (Option.map _) h

/-- All that a step can be. -/
theorem step_cases (h : step s = some t) :
    (∃ kind message stack token rest, s = (.token kind message :: stack, token :: rest) ∧
      t = (stack, rest) ∧ token.kind = kind ∧ token.flaw? = none) ∨
    (∃ p items stack token rest, s = (.part p :: stack, token :: rest) ∧
      t = (items ++ stack, token :: rest) ∧ p.predict token.kind = some items) := by
  unfold step at h
  split at h
  case h_1 kind message stack token rest =>
    by_cases hok : token.kind = kind ∧ token.flaw? = none
    · rw [if_pos hok] at h
      exact .inl ⟨kind, message, stack, token, rest, rfl, (Option.some.inj h).symm, hok⟩
    · rw [if_neg hok] at h
      cases h
  case h_2 p stack token rest =>
    obtain ⟨items, hitems, rfl⟩ := Option.map_eq_some_iff.mp h
    exact .inr ⟨p, items, stack, token, rest, rfl, rfl, hitems⟩
  case h_3 => cases h

/-- Whether a state is stuck is seen from the token in front and what is expected of it. -/
theorem stuck_of_stuck (h : step (item :: stack, token :: rest) = none) (stack' : List Item)
    (rest' : List Token) : step (item :: stack', token :: rest') = none := by
  cases item with
  | token kind message =>
    have hno : ¬ (token.kind = kind ∧ token.flaw? = none) := fun hok => by
      rw [step_token hok.1 hok.2] at h
      cases h
    exact if_neg hno
  | part p => exact Option.map_eq_none_iff.mpr (Option.map_eq_none_iff.mp h)

/-- A token that cannot be what is expected is blamed where it starts. -/
theorem Item.blame_position (item : Item) (token : Token) :
    (item.blame token).position = token.span.start := by
  have hunexpected (message : Option String) :
      (token.unexpected message).position = token.span.start := by
    cases message <;> rfl
  cases item with
  | token kind message =>
    rw [blame]
    split
    · cases hflaw : token.flaw? with
      | none => exact hunexpected message
      | some flaw => exact Token.flaw?_position hflaw
    · exact hunexpected message
  | part p => exact hunexpected _

/-! ## Ways -/

/-- A step that takes a token, in front of a run. -/
theorem Reaches.take (hkind : token.kind = kind) (hflaw : token.flaw? = none)
    (h : Reaches (stack, rest) t) : Reaches (.token kind message :: stack, token :: rest) t :=
  h.head (step_token hkind hflaw)

/-- A step that predicts, in front of a run. -/
theorem Reaches.open (hp : p.predict token.kind = some items)
    (h : Reaches (items ++ stack, token :: rest) t) : Reaches (.part p :: stack, token :: rest) t :=
  h.head (step_part hp)

/-- A run that comes to a failure fails. -/
theorem Fails.after {diagnostic : Diagnostic} (ht : Fails t diagnostic) (h : Reaches s t) :
    Fails s diagnostic := by
  obtain ⟨item, stack, token, rest, hway, hstuck, hblame⟩ := ht
  exact ⟨item, stack, token, rest, h.trans hway, hstuck, hblame⟩

theorem fails_token (h : token.kind ≠ kind) :
    Fails (.token kind message :: stack, token :: rest) (token.unexpected message) :=
  ⟨.token kind message, stack, token, rest, .refl, if_neg fun hok => h hok.1, (if_neg h).symm⟩

theorem fails_flaw {flaw : Diagnostic} (h : token.flaw? = some flaw) :
    Fails (.token token.kind message :: stack, token :: rest) flaw := by
  refine ⟨.token token.kind message, stack, token, rest, .refl, if_neg fun hok => ?_, ?_⟩
  · rw [h] at hok
    cases hok.2
  · rw [Item.blame, if_pos rfl, h]
    rfl

theorem fails_part (h : p.predict token.kind = none) :
    Fails (.part p :: stack, token :: rest) (token.unexpected (p.message? token.kind)) :=
  ⟨.part p, stack, token, rest, .refl, congrArg (Option.map _) h, rfl⟩

/-- There is one way only, so that it ends in one state at most. -/
theorem Reaches.unique (ht : Reaches s t) (hu : Reaches s u) (hstuck : step t = none)
    (hstuck' : step u = none) : t = u := by
  have hends : ∀ {a b : State}, Reaches a b → step a = none → a = b := fun hab ha => by
    rcases Relation.ReflTransGen.cases_head hab with heq | ⟨c, hc, -⟩
    · exact heq
    · rw [ha] at hc
      cases hc
  have hone : Relator.RightUnique fun s t : State => step s = some t :=
    fun _ _ _ hb hc => Option.some.inj (hb.symm.trans hc)
  rcases Relation.ReflTransGen.total_of_right_unique hone ht hu with h | h
  · exact hends h hstuck
  · exact (hends h hstuck').symm

/-- The way up to where a token comes to stand in front does not depend on that token or those
behind it, and the way on from there does not depend on those behind it. -/
theorem Reaches.split (h : Reaches (stack, tokens) (stack', rest)) :
    ∃ taken middle, tokens = taken ++ rest ∧
      (∀ rest', Reaches (stack, taken ++ rest') (middle, rest')) ∧
      ∀ token behind, rest = token :: behind →
        ∀ behind', Reaches (middle, token :: behind') (stack', token :: behind') := by
  generalize htarget : (stack', rest) = target at h
  induction h generalizing stack' rest with
  | refl =>
    obtain ⟨rfl, rfl⟩ := Prod.mk.inj htarget
    exact ⟨[], stack', rfl, fun _ => .refl, fun _ _ _ _ => .refl⟩
  | tail _ hstep ih =>
    subst htarget
    rcases step_cases hstep with
      ⟨kind, message, below, token, behind, rfl, ht, hkind, hflaw⟩ |
        ⟨p, items, below, token, behind, rfl, ht, hp⟩
    · -- a token is taken, and the way is divided behind it
      obtain ⟨rfl, rfl⟩ := Prod.mk.inj ht
      obtain ⟨taken, middle, htokens, hto, hon⟩ := ih rfl
      refine ⟨taken ++ [token], stack', ?_, fun rest' => ?_, fun _ _ _ _ => .refl⟩
      · rw [htokens, List.append_assoc]
        rfl
      · have hbefore := (hto (token :: rest')).trans (hon token _ rfl rest')
        rw [List.append_assoc]
        exact hbefore.tail (step_token hkind hflaw)
    · -- a part is replaced, for which only the token in front is looked at
      obtain ⟨rfl, rfl⟩ := Prod.mk.inj ht
      obtain ⟨taken, middle, htokens, hto, hon⟩ := ih rfl
      refine ⟨taken, middle, htokens, hto, fun token' behind' heq => ?_⟩
      obtain ⟨rfl, rfl⟩ := List.cons.inj heq
      exact fun rest' => (hon token behind rfl rest').tail (step_part hp)

end Predictive

end TeachLang
