import TeachLang.Proofs.Grammar
import TeachLang.Proofs.JavaSyntax

/-!
# Expressions in Java

What an expression means in Java is a tree of the same shape: `Expr.javaTree` has its operators with
their operands, its groups as parentheses, and the names that its slots give. `Expr.lexemes` are the
lexemes that it is emitted as.

Emitted operands get no parentheses, so the lexemes only keep the shape where Java's operators are
as strong as those of the language, compared with each other. `Expr.Emittable` says how far checked
expressions come: there is one case left in which they are not, `OR` on the left of `AND`, and
`Expr.Unmixed` excludes it. `Expr.isRead` says that this is enough, and `Expr.unmixed_of_read` that
it is needed.
-/

namespace TeachLang

namespace Java

/-! ## Names and constants -/

/-- A name of Java. -/
def IsName (cs : List Char) : Prop :=
  ∃ c ds, cs = c :: ds ∧ startsName c = true ∧ ∀ d ∈ ds, continuesName d = true

/-- The parts of a text between its points. -/
def parts (text : String) : List (List Char) := text.toList.splitOn '.'

/-- A name, or several with points between them. -/
def IsPath (text : String) : Prop := ∀ part ∈ parts text, IsName part

/-- Members of members. -/
def memberOf (t : Tree) (names : List (List Char)) : Tree :=
  names.foldl (fun t n => .member t (String.ofList n)) t

/-- What a path means where it stands alone. -/
def pathTree (text : String) : Tree :=
  match parts text with
  | [] => .name ""
  | first :: others => memberOf (.name (String.ofList first)) others

/-- What a path means behind a point. -/
def memberTree (t : Tree) (text : String) : Tree := memberOf t (parts text)

/-- What a constant means. -/
def literalTree (value : Literal) : Tree :=
  match value with
  | .nil | .boolean _ => .name (literal value)
  | _ => .constant (literal value)

/-- A name with the point before it. -/
def partLexemes (part : List Char) : List Lexeme := [.dot, .word (String.ofList part)]

/-- A path with a point before it. -/
def memberLexemes (text : String) : List Lexeme := (parts text).flatMap partLexemes

/-- A path. -/
def pathLexemes (text : String) : List Lexeme := (memberLexemes text).tail

/-- A number, the sign of which is a lexeme of its own. -/
def numeralLexemes (text : String) : List Lexeme :=
  match text.toList with
  | '-' :: cs => [.sign .minus, .number (String.ofList cs)]
  | cs => [.number (String.ofList cs)]

/-- A constant. -/
def literalLexemes (value : Literal) : List Lexeme :=
  match value with
  | .nil | .boolean _ => [.word (literal value)]
  | .integer _ | .decimal _ => numeralLexemes (literal value)
  | .character _ | .string _ => [.quoted (literal value)]

end Java

/-! ## Expressions -/

namespace Expr

mutual

/-- What an expression means. -/
def javaTree : Expr → Java.Tree
  | literal value _ _ => Java.literalTree value
  | group inner _ _ => .group inner.javaTree
  | binary operator left right _ _ => .binary operator left.javaTree right.javaTree
  | name _ binding _ => Java.pathTree (binding.elim "" Variable.javaName)
  | member receiver _ binding _ =>
    Java.memberTree receiver.javaTree (binding.elim "" Variable.javaName)
  | call _ arguments callee _ =>
    .call (Java.pathTree (callee.elim "" Signature.javaName)) (javaTrees arguments)
  | methodCall receiver _ arguments callee _ =>
    .call (Java.memberTree receiver.javaTree (callee.elim "" Signature.javaName))
      (javaTrees arguments)

/-- What expressions mean. -/
def javaTrees : List Expr → List Java.Tree
  | [] => []
  | e :: es => e.javaTree :: javaTrees es

end

mutual

/-- The lexemes of an expression. -/
def lexemes : Expr → List Java.Lexeme
  | literal value _ _ => Java.literalLexemes value
  | group inner _ _ => .openParen :: (inner.lexemes ++ [.closeParen])
  | binary operator left right _ _ => left.lexemes ++ .sign operator :: right.lexemes
  | name _ binding _ => Java.pathLexemes (binding.elim "" Variable.javaName)
  | member receiver _ binding _ =>
    receiver.lexemes ++ Java.memberLexemes (binding.elim "" Variable.javaName)
  | call _ arguments callee _ =>
    Java.pathLexemes (callee.elim "" Signature.javaName) ++ argumentLexemes arguments
  | methodCall receiver _ arguments callee _ =>
    receiver.lexemes ++ (Java.memberLexemes (callee.elim "" Signature.javaName) ++
      argumentLexemes arguments)

/-- The lexemes of arguments, with their parentheses. -/
def argumentLexemes : List Expr → List Java.Lexeme
  | [] => [.openParen, .closeParen]
  | first :: others => .openParen :: (first.lexemes ++ (moreLexemes others ++ [.closeParen]))

/-- The lexemes of further arguments, each behind a comma. -/
def moreLexemes : List Expr → List Java.Lexeme
  | [] => []
  | e :: es => .comma :: (e.lexemes ++ moreLexemes es)

end

/-- How strongly an expression holds together in Java: as its operator does, and else more strongly
than any of them. -/
def javaPower : Expr → Nat
  | binary operator .. => Java.power operator
  | _ => 7

/-- Whether an expression is made by `OR`. -/
def isOr : Expr → Bool
  | binary .or .. => true
  | _ => false

mutual

/-- Whether an expression can be emitted: its slots are filled with what has names in Java, its
numbers have places, only names and calls have members, and no operand is weaker than its operator,
`OR` on the left of `AND` apart. -/
def Emittable : Expr → Prop
  | literal value ty _ => ty.isSome = true ∧ value.Spellable
  | group inner ty _ => ty.isSome = true ∧ inner.Emittable
  | binary operator left right ty _ =>
    ty.isSome = true ∧ left.Emittable ∧ right.Emittable ∧
      (Java.power operator ≤ left.javaPower ∨ operator = .and ∧ left.isOr = true) ∧
      Java.power operator < right.javaPower
  | name _ binding _ => ∃ v, binding = some v ∧ Java.IsPath v.javaName
  | member receiver _ binding _ =>
    receiver.Emittable ∧ (receiver.isAccess || receiver.isCall) = true ∧
      ∃ v, binding = some v ∧ Java.IsPath v.javaName
  | call _ arguments callee _ =>
    AllEmittable arguments ∧ ∃ f, callee = some f ∧ Java.IsPath f.javaName
  | methodCall receiver _ arguments callee _ =>
    receiver.Emittable ∧ (receiver.isAccess || receiver.isCall) = true ∧ AllEmittable arguments ∧
      ∃ f, callee = some f ∧ Java.IsPath f.javaName

/-- Whether all expressions of a list can be emitted. -/
def AllEmittable : List Expr → Prop
  | [] => True
  | e :: es => e.Emittable ∧ AllEmittable es

end

mutual

/-- Whether no `AND` in an expression has an `OR` without parentheses as its left operand. -/
def Unmixed : Expr → Prop
  | literal .. | name .. => True
  | group inner _ _ => inner.Unmixed
  | binary operator left right _ _ =>
    left.Unmixed ∧ right.Unmixed ∧ ¬ (operator = .and ∧ left.isOr = true)
  | member receiver _ _ _ => receiver.Unmixed
  | call _ arguments _ _ => AllUnmixed arguments
  | methodCall receiver _ arguments _ _ => receiver.Unmixed ∧ AllUnmixed arguments

/-- Whether that holds of all expressions of a list. -/
def AllUnmixed : List Expr → Prop
  | [] => True
  | e :: es => e.Unmixed ∧ AllUnmixed es

end

end Expr

/-! ## From lexemes to trees -/

namespace Java

variable {frames : List Frame} {pending : Pending} {t : Tree} {rest : List Lexeme}

/-- Whether what waits last waits behind an operator that is weaker than `p`. -/
def Pending.Weaker (pending : Pending) (p : Nat) : Prop := ∀ w ∈ pending.head?, power w.2 < p

theorem power_lt_seven (o : Operator) : power o < 7 := by cases o <;> decide

/-- Operators that are weaker than a power wait for more. -/
theorem reduce_weaker {p : Nat} (h : Pending.Weaker pending p) (t : Tree) :
    reduce p pending t = (pending, t) := by
  cases pending with
  | nil => rfl
  | cons w pending =>
    have hw := h w rfl
    rw [reduce, if_neg (by omega)]

theorem isCallable_memberOf (ns : List (List Char)) {t : Tree} (h : t.isCallable = true) :
    (memberOf t ns).isCallable = true := by
  induction ns generalizing t with
  | nil => exact h
  | cons n ns ih => exact ih rfl

theorem parts_ne_nil (text : String) : parts text ≠ [] := List.splitOn_ne_nil _ _

/-- Points and names behind an operand are its members. -/
theorem behindOperand_parts (ns : List (List Char)) (t : Tree) :
    behindOperand frames pending t (ns.flatMap partLexemes ++ rest) =
      behindOperand frames pending (memberOf t ns) rest := by
  induction ns generalizing t with
  | nil => rfl
  | cons n ns ih =>
    rw [List.flatMap_cons, List.append_assoc]
    exact ih _

theorem behindOperand_member (text : String) (t : Tree) :
    behindOperand frames pending t (memberLexemes text ++ rest) =
      behindOperand frames pending (memberTree t text) rest :=
  behindOperand_parts _ t

/-- A path is read as the members of a name. -/
theorem atOperand_path (text : String) :
    atOperand frames pending (pathLexemes text ++ rest) =
      behindOperand frames pending (pathTree text) rest := by
  rw [pathLexemes, memberLexemes, pathTree]
  cases h : parts text with
  | nil => exact absurd h (parts_ne_nil text)
  | cons first others => exact behindOperand_parts others _

theorem isCallable_pathTree (text : String) : (pathTree text).isCallable = true := by
  rw [pathTree]
  split
  · rfl
  · exact isCallable_memberOf _ rfl

theorem isCallable_memberTree (t : Tree) (text : String) :
    (memberTree t text).isCallable = true := by
  rw [memberTree]
  cases h : parts text with
  | nil => exact absurd h (parts_ne_nil text)
  | cons first others => exact @isCallable_memberOf others (.member t (String.ofList first)) rfl

/-- A number with its sign is one constant. -/
theorem atOperand_numeral (text : String) :
    atOperand frames pending (numeralLexemes text ++ rest) =
      behindOperand frames pending (.constant text) rest := by
  rw [numeralLexemes]
  split
  · next cs heq =>
    have htext : "-" ++ String.ofList cs = text := by
      apply String.toList_injective
      simp [heq]
    simp [atOperand, htext]
  · simp [atOperand]

theorem atOperand_literal (value : Literal) :
    atOperand frames pending (literalLexemes value ++ rest) =
      behindOperand frames pending (literalTree value) rest := by
  cases value with
  | integer n => exact atOperand_numeral _
  | decimal d => exact atOperand_numeral _
  | _ => rfl

end Java

namespace Expr

open Java

/-- The operands that wait when an expression has been read, and the one that they wait for: those
on the way down to its right end. -/
def spine : Expr → Pending × Tree
  | binary operator left right _ _ =>
    (right.spine.1 ++ [(left.javaTree, operator)], right.spine.2)
  | e => ([], e.javaTree)

/-- What is pending of an expression at its right edge closes to its tree. -/
theorem close_spine (e : Expr) (pending : Pending) :
    close (e.spine.1 ++ pending) e.spine.2 = close pending e.javaTree := by
  fun_induction spine generalizing pending with
  | case1 operator left right ty span ih =>
    rw [List.append_assoc, List.singleton_append]
    exact ih _
  | case2 e => rfl

/-- What holds together as strongly as an operator does is taken by it as a whole. -/
theorem reduce_spine {e : Expr} (he : e.Emittable) {p : Nat} (hp : p ≤ e.javaPower)
    (pending : Pending) :
    reduce p (e.spine.1 ++ pending) e.spine.2 = reduce p pending e.javaTree := by
  induction e using spine.induct generalizing pending with
  | case1 operator left right ty span ih =>
    obtain ⟨-, -, hright, -, hlt⟩ := he
    have hp' : p ≤ Java.power operator := hp
    rw [spine, List.append_assoc, List.singleton_append, ih hright (by omega), reduce, if_pos hp']
    rfl
  | case2 e hne =>
    rw [spine]
    · rfl
    · exact hne

/-- Whether the lexemes of an expression are read as it is meant, among operands that wait behind
weaker operators. -/
def IsRead (e : Expr) : Prop :=
  ∀ (frames : List Frame) (pending : Pending) (rest : List Lexeme), pending.Weaker e.javaPower →
    atOperand frames pending (e.lexemes ++ rest) =
      behindOperand frames (e.spine.1 ++ pending) e.spine.2 rest

theorem spine_receiver {e : Expr} (h : (e.isAccess || e.isCall) = true) :
    e.spine = ([], e.javaTree) ∧ e.javaPower = 7 := by
  cases e <;> first | exact ⟨rfl, rfl⟩ | cases h

/-- What has members is read whatever waits for it. -/
theorem IsRead.receiver {e : Expr} (he : e.IsRead) (h : (e.isAccess || e.isCall) = true)
    (frames : List Frame) (pending : Pending) (rest : List Lexeme) :
    atOperand frames pending (e.lexemes ++ rest) =
      behindOperand frames pending e.javaTree rest := by
  obtain ⟨hspine, hpower⟩ := spine_receiver h
  have hread := he frames pending rest fun w _ => by
    rw [hpower]
    exact power_lt_seven w.2
  rwa [hspine] at hread

mutual

/-- The lexemes of an expression are read as it is meant. What waits for a left operand is settled
by its operator, since that is not stronger; what waits for a right operand still has to wait. -/
theorem isRead : ∀ {e : Expr}, e.Emittable → e.Unmixed → e.IsRead
  | literal value ty span, _, _ => fun frames pending rest _ => atOperand_literal value
  | group inner ty span, ⟨_, he⟩, hu => by
    intro frames pending rest _
    have hinner := isRead he hu (.group pending :: frames) [] (.closeParen :: rest)
      (fun w hw => nomatch hw)
    simp only [lexemes, List.cons_append, List.append_assoc, List.nil_append, atOperand, hinner,
      behindOperand, close_spine]
    rfl
  | binary operator left right ty span, ⟨_, hl, hr, hle, hlt⟩, ⟨hul, hur, hmix⟩ => by
    intro frames pending rest hpending
    have hle := hle.resolve_right hmix
    have hweaker : pending.Weaker (Java.power operator) := hpending
    have hleft := isRead hl hul frames pending (.sign operator :: (right.lexemes ++ rest))
      fun w hw => Nat.lt_of_lt_of_le (hpending w hw) hle
    have hright := isRead hr hur frames ((left.javaTree, operator) :: pending) rest
      fun w hw => by obtain rfl := Option.some.inj hw; exact hlt
    rw [lexemes, List.append_assoc, List.cons_append, hleft, behindOperand, reduce_spine hl hle,
      reduce_weaker hweaker]
    simp only [hright, spine, List.append_assoc, List.singleton_append]
  | name n binding span, _, _ => fun frames pending rest _ => atOperand_path _
  | member receiver n binding span, ⟨he, hreceiver, _⟩, hu => by
    intro frames pending rest _
    rw [lexemes, List.append_assoc, (isRead he hu).receiver hreceiver, behindOperand_member]
    rfl
  | call n arguments callee span, ⟨he, _⟩, hu => by
    intro frames pending rest _
    rw [lexemes, List.append_assoc, atOperand_path, areRead he hu _ _ (isCallable_pathTree _)]
    rfl
  | methodCall receiver n arguments callee span, ⟨he, hreceiver, hes, _⟩, ⟨hu, hus⟩ => by
    intro frames pending rest _
    rw [lexemes, List.append_assoc, (isRead he hu).receiver hreceiver, List.append_assoc,
      behindOperand_member, areRead hes hus _ _ (isCallable_memberTree _ _)]
    rfl

/-- The lexemes of arguments make a call of what stands before them. -/
theorem areRead : ∀ {es : List Expr}, AllEmittable es → AllUnmixed es →
    ∀ (frames : List Frame) (pending : Pending) {callee : Tree} {rest : List Lexeme},
      callee.isCallable = true →
      behindOperand frames pending callee (argumentLexemes es ++ rest) =
        behindOperand frames pending (.call callee (javaTrees es)) rest
  | [], _, _ => by
    intro frames pending callee rest hcallee
    simp [argumentLexemes, behindOperand, hcallee, atOperand, javaTrees]
  | e :: es, ⟨he, hes⟩, ⟨hu, hus⟩ => by
    intro frames pending callee rest hcallee
    have hfirst := isRead he hu (.call pending callee [] :: frames) []
      (moreLexemes es ++ .closeParen :: rest) fun w hw => nomatch hw
    simp only [argumentLexemes, List.cons_append, List.append_assoc, List.nil_append,
      behindOperand, hcallee, if_pos, hfirst, moreAreRead hes hus, close_spine]
    rfl

/-- Further arguments join those that are read. -/
theorem moreAreRead : ∀ {es : List Expr}, AllEmittable es → AllUnmixed es →
    ∀ (frames : List Frame) (pending before : Pending) (callee t : Tree) (done : List Tree)
      (rest : List Lexeme),
      behindOperand (.call before callee done :: frames) pending t
          (moreLexemes es ++ .closeParen :: rest) =
        behindOperand frames before (.call callee (done ++ close pending t :: javaTrees es)) rest
  | [], _, _ => by
    intros
    simp [moreLexemes, behindOperand, javaTrees]
  | e :: es, ⟨he, hes⟩, ⟨hu, hus⟩ => by
    intro frames pending before callee t done rest
    have hfirst := isRead he hu (.call before callee (done ++ [close pending t]) :: frames) []
      (moreLexemes es ++ .closeParen :: rest) fun w hw => nomatch hw
    simp only [moreLexemes, List.cons_append, List.append_assoc, behindOperand, hfirst,
      moreAreRead hes hus, close_spine, javaTrees, List.nil_append, close]

end

end Expr

/-! ## What can be read at all -/

namespace Java

/-- How strongly a tree holds together. -/
def Tree.power : Tree → Nat
  | binary operator .. => Java.power operator
  | _ => 7

/-- Whether no operand in a tree is weaker than its operator, nor as weak on the right. -/
inductive Tree.Settled : Tree → Prop where
  /-- a name -/
  | name {text : String} : Tree.Settled (.name text)
  /-- a constant -/
  | constant {text : String} : Tree.Settled (.constant text)
  /-- a member -/
  | member {receiver : Tree} {text : String} :
    receiver.Settled → Tree.Settled (.member receiver text)
  /-- a call -/
  | call {callee : Tree} {arguments : List Tree} :
    callee.Settled → (∀ t ∈ arguments, t.Settled) → Tree.Settled (.call callee arguments)
  /-- an expression in parentheses -/
  | group {inner : Tree} : inner.Settled → Tree.Settled (.group inner)
  /-- an operator -/
  | binary {operator : Operator} {left right : Tree} :
    left.Settled → right.Settled → Java.power operator ≤ left.power →
    Java.power operator < right.power → Tree.Settled (.binary operator left right)

/-- Whether operands that wait are settled, each behind a weaker operator than those after it. -/
def Pending.Settled : Pending → Prop
  | [] => True
  | (left, o) :: pending =>
    left.Settled ∧ power o ≤ left.power ∧ Pending.Weaker pending (power o) ∧ Pending.Settled pending

/-- Whether all that is kept around open parentheses is settled. -/
def Frame.Settled : Frame → Prop
  | group pending => pending.Settled
  | call pending callee arguments =>
    pending.Settled ∧ callee.Settled ∧ ∀ t ∈ arguments, t.Settled

/-- Operators that wait in the order of their powers close to a settled tree. -/
theorem settled_close {pending : Pending} {t : Tree} (hpending : pending.Settled) (ht : t.Settled)
    (hlast : pending.Weaker t.power) : (close pending t).Settled := by
  induction pending generalizing t with
  | nil => exact ht
  | cons w pending ih =>
    obtain ⟨hleft, hle, hweaker, hpending⟩ := hpending
    exact ih hpending (.binary hleft ht hle (hlast w rfl)) hweaker

/-- An operator takes an operand that is not weaker, and waits among weaker ones. -/
theorem settled_reduce {o : Operator} {pending rest : Pending} {t left : Tree}
    (hpending : pending.Settled) (ht : t.Settled) (hlast : pending.Weaker t.power)
    (ho : power o ≤ t.power) (h : reduce (power o) pending t = (rest, left)) :
    Pending.Settled ((left, o) :: rest) := by
  induction pending generalizing t with
  | nil =>
    obtain ⟨rfl, rfl⟩ := Prod.mk.inj h
    exact ⟨ht, ho, (fun w hw => nomatch hw), trivial⟩
  | cons w pending ih =>
    have hw : Pending.Settled (w :: pending) := hpending
    obtain ⟨hleft, hle, hweaker, hpending⟩ := hpending
    rw [reduce] at h
    split at h
    · next hstrong =>
      exact ih hpending (.binary hleft ht hle (hlast w rfl)) hweaker hstrong h
    · next hweak =>
      obtain ⟨rfl, rfl⟩ := Prod.mk.inj h
      refine ⟨ht, ho, fun v hv => ?_, hw⟩
      obtain rfl := Option.some.inj hv
      exact Nat.lt_of_not_le hweak

/-- Nothing binds tighter than a member or a call. -/
theorem weaker_of_power {pending : Pending} {t : Tree} (h : t.power = 7) :
    pending.Weaker t.power := fun w _ => by
  rw [h]
  exact power_lt_seven w.2

/-- Whether all that is kept while lexemes are read is settled. -/
structure Kept (frames : List Frame) (pending : Pending) : Prop where
  /-- what is kept around open parentheses -/
  frames : ∀ f ∈ frames, f.Settled
  /-- the operands that wait -/
  pending : pending.Settled

theorem Kept.enter {frames : List Frame} {pending : Pending} (h : Kept frames pending) {f : Frame}
    (hf : f.Settled) : Kept (f :: frames) [] :=
  ⟨List.forall_mem_cons.mpr ⟨hf, h.frames⟩, trivial⟩

theorem settled_concat {arguments : List Tree} {pending : Pending} {t : Tree}
    (harguments : ∀ a ∈ arguments, a.Settled) (hpending : pending.Settled) (ht : t.Settled)
    (hpower : t.power = 7) : ∀ a ∈ arguments ++ [close pending t], a.Settled := by
  have hclose := settled_close hpending ht (weaker_of_power hpower)
  intro a ha
  rcases List.mem_append.mp ha with ha | ha
  · exact harguments a ha
  · rwa [List.mem_singleton.mp ha]

/-- Whatever is read is settled. -/
theorem settled_of_atOperand :
    (∀ frames pending ls, Kept frames pending →
      ∀ u, atOperand frames pending ls = some u → u.Settled) ∧
    (∀ frames pending t ls, Kept frames pending → t.Settled → t.power = 7 →
      ∀ u, behindOperand frames pending t ls = some u → u.Settled) := by
  apply atOperand.mutual_induct
    (fun frames pending ls => Kept frames pending →
      ∀ u, atOperand frames pending ls = some u → u.Settled)
    (fun frames pending t ls => Kept frames pending → t.Settled → t.power = 7 →
      ∀ u, behindOperand frames pending t ls = some u → u.Settled)
  -- where an operand has to stand
  · exact fun frames pending text ls ih hk u h => ih hk .name rfl u h
  · exact fun frames pending text ls ih hk u h => ih hk .constant rfl u h
  · exact fun frames pending text ls ih hk u h => ih hk .constant rfl u h
  · exact fun frames pending text ls ih hk u h => ih hk .constant rfl u h
  · exact fun frames pending ls ih hk u h => ih (hk.enter hk.pending) u h
  · intro ls before callee frames ih hk u h
    obtain ⟨⟨hbefore, hcallee, -⟩, hframes⟩ := List.forall_mem_cons.mp hk.frames
    exact ih ⟨hframes, hbefore⟩ (.call hcallee fun t ht => nomatch ht) rfl u h
  · intro frames pending ls hframes _ u h
    rw [atOperand] at h
    · cases h
    · exact hframes
  · intro ls frames pending _ _ _ _ _ _ _ u h
    rw [atOperand] at h
    · cases h
    all_goals assumption
  -- behind an operand
  · intro frames pending t hempty hk ht hpower u h
    rw [behindOperand, if_pos hempty] at h
    obtain rfl := Option.some.inj h
    exact settled_close hk.pending ht (weaker_of_power hpower)
  · intro frames pending t hempty _ _ _ u h
    rw [behindOperand, if_neg hempty] at h
    cases h
  · intro frames pending t o ls rest left hreduce ih hk ht hpower u h
    rw [behindOperand, hreduce] at h
    have ho := Nat.le_of_lt (power_lt_seven o)
    have hpending := settled_reduce hk.pending ht (weaker_of_power hpower) (hpower ▸ ho) hreduce
    exact ih ⟨hk.frames, hpending⟩ u h
  · exact fun frames pending t text ls ih hk ht _ u h => ih hk (.member ht) rfl u h
  · intro frames pending t ls hcallable ih hk ht _ u h
    rw [behindOperand, if_pos hcallable] at h
    exact ih (hk.enter ⟨hk.pending, ht, fun a ha => nomatch ha⟩) u h
  · intro frames pending t ls hcallable _ _ _ u h
    rw [behindOperand, if_neg hcallable] at h
    cases h
  · intro pending t ls before callee arguments frames ih hk ht hpower u h
    obtain ⟨⟨hbefore, hcallee, harguments⟩, hframes⟩ := List.forall_mem_cons.mp hk.frames
    have hall := settled_concat harguments hk.pending ht hpower
    exact ih ⟨List.forall_mem_cons.mpr ⟨⟨hbefore, hcallee, hall⟩, hframes⟩, trivial⟩ u h
  · intro frames pending t ls hframes _ _ _ u h
    rw [behindOperand] at h
    · cases h
    · exact hframes
  · intro pending t ls before frames ih hk ht hpower u h
    obtain ⟨hbefore, hframes⟩ := List.forall_mem_cons.mp hk.frames
    have hclose := settled_close hk.pending ht (weaker_of_power hpower)
    exact ih ⟨hframes, hbefore⟩ (.group hclose) rfl u h
  · intro pending t ls before callee arguments frames ih hk ht hpower u h
    obtain ⟨⟨hbefore, hcallee, harguments⟩, hframes⟩ := List.forall_mem_cons.mp hk.frames
    have hall := settled_concat harguments hk.pending ht hpower
    exact ih ⟨hframes, hbefore⟩ (.call hcallee hall) rfl u h
  · intro pending t ls _ _ _ u h
    cases h
  · intro ls frames pending t _ _ _ _ _ _ _ _ _ u h
    rw [behindOperand] at h
    · cases h
    all_goals assumption

end Java

namespace Expr

open Java

theorem settled_of_memberOf {t : Tree} {names : List (List Char)}
    (h : (memberOf t names).Settled) : t.Settled := by
  induction names generalizing t with
  | nil => exact h
  | cons n names ih =>
    cases ih h with
    | member ht => exact ht

mutual

/-- A tree that a reader could have made has no mixed operand. -/
theorem unmixed_of_settled : ∀ e : Expr, e.javaTree.Settled → e.Unmixed
  | literal .., _ => trivial
  | name .., _ => trivial
  | group inner _ _, .group h => unmixed_of_settled inner h
  | binary operator left right _ _, .binary hl hr hle _ => by
    refine ⟨unmixed_of_settled left hl, unmixed_of_settled right hr, ?_⟩
    rintro ⟨rfl, hor⟩
    unfold isOr at hor
    split at hor
    · exact absurd (show 2 ≤ 1 from hle) (by decide)
    · cases hor
  | member receiver _ _ _, h => unmixed_of_settled receiver (settled_of_memberOf h)
  | call _ arguments _ _, .call _ h => allUnmixed_of_settled arguments h
  | methodCall receiver _ arguments _ _, .call hcallee h =>
    ⟨unmixed_of_settled receiver (settled_of_memberOf hcallee), allUnmixed_of_settled arguments h⟩

theorem allUnmixed_of_settled : ∀ es : List Expr, (∀ t ∈ javaTrees es, t.Settled) → AllUnmixed es
  | [], _ => trivial
  | e :: es, h =>
    ⟨unmixed_of_settled e (h _ (List.mem_cons_self ..)),
      allUnmixed_of_settled es fun t ht => h t (List.mem_cons_of_mem _ ht)⟩

end

/-- An expression that Java reads in some text as it is meant has no `OR` on the left of `AND`. -/
theorem unmixed_of_read {e : Expr} {text : String} (h : Java.read text = some e.javaTree) :
    e.Unmixed := by
  obtain ⟨ls, -, hls⟩ := Option.bind_eq_some_iff.mp h
  have hkept : Kept [] [] := ⟨(fun f hf => nomatch hf), trivial⟩
  exact unmixed_of_settled e (settled_of_atOperand.1 _ _ _ hkept _ hls)

end Expr

end TeachLang
