import TeachLang.Proofs.JavaLines
import TeachLang.Proofs.JavaNames
import TeachLang.Proofs.Parts

/-!
# The layout of emitted programs

Statements are emitted as lines that are laid by the braces that they stand in, at any depth and
with any blocks in blocks. So is a whole program, if its expressions can be emitted and what it
declares has a type and a name that can be written in Java (`Program.wellLaid_java`).
-/

namespace TeachLang

namespace Java

variable {due cs : List Char} {ls ms : List (List Char)} {text next : String}

/-! ## Code -/

/-- Inside of a block there is one brace more. -/
theorem count_inner {depth : Nat} (h : due.count '\x7d' = depth) :
    ('\x7d' :: due).count '\x7d' = depth + 1 := by
  rw [List.count_cons_self, h]

theorem IsCode.concat (h : IsCode text.toList ls) (hnext : ∀ due, Reads due next.toList due ms) :
    IsCode (text ++ next).toList (ls ++ ms) := by
  rw [String.toList_append]
  exact h.append hnext

/-- Code goes on with plain characters. -/
theorem IsCode.plain (h : IsCode text.toList ls) (next : String)
    (hnext : ∀ c ∈ next.toList, c ∉ marks) : IsCode (text ++ next).toList ls := by
  have hcode := h.concat fun due => reads_plain hnext due
  rwa [List.append_nil] at hcode

/-- Parentheses behind code, and the blank in front of a brace. -/
theorem isCode_head {word : String} (hword : IsCode word.toList []) {opening : String}
    (hopening : opening.toList = word.toList ++ ['('])
    (hnext : ∀ due, Reads due next.toList due ls) : IsCode (opening ++ next ++ ") ").toList ls := by
  have hcode := (hword.append fun due => reads_parens hnext due).append
    (@reads_plain [' '] (by simp [marks]))
  simpa [hopening] using hcode

theorem isCode_text
    (h : ∃ c cs, text.toList = c :: cs ∧ c ≠ ' ' ∧ ∀ d ∈ c :: cs, d ∉ marks) :
    IsCode text.toList [] := by
  obtain ⟨c, cs, htext, hc, hcs⟩ := h
  rw [htext]
  exact isCode_plain hc hcs

/-- The types that a program can name have names that are code. -/
theorem isCode_ty {ty : Ty} (h : ty ∈ Ty.builtins) : IsCode ty.javaName.toList [] := by
  have hplain : ∀ ty ∈ Ty.builtins, ∃ c cs, ty.javaName.toList = c :: cs ∧ c ≠ ' ' ∧
      ∀ d ∈ c :: cs, d ∉ marks := by
    simp [Ty.builtins, Ty.nil, Ty.any, Ty.comparable, Ty.boolean, Ty.integer, Ty.decimal,
      Ty.character, Ty.string, Ty.integerIterable, Ty.plain, marks]
  exact isCode_text (hplain ty h)

theorem isCode_variable {ty : Ty} (h : ty ∈ Ty.builtins) {n : String} (hn : IsPath n) :
    IsCode (ty.javaName ++ " " ++ n).toList [] :=
  ((isCode_ty h).plain " " (by simp [marks])).concat (isCode_path hn).reads

end Java

/-! ## Statements -/

theorem Java.isCode_declaration {ty : Ty} (h : ty ∈ Ty.builtins) {n : String} (hn : IsPath n)
    {value : Option Expr} (hvalue : ∀ e ∈ value.toList, e.Emittable) :
    ∃ text, declaration (.plain n ty) value = .ok text ∧
      IsCode text.toList (value.toList.flatMap Expr.quotations) := by
  have hvariable := isCode_variable h hn
  cases value with
  | none =>
    refine ⟨ty.javaName ++ " " ++ n ++ "" ++ ";", rfl, ?_⟩
    exact (hvariable.plain "" (by simp)).plain ";" (by simp [marks])
  | some e =>
    obtain ⟨text, htext, hcode⟩ := Expr.isCode_java (hvalue e (List.mem_singleton_self e))
    refine ⟨ty.javaName ++ " " ++ n ++ (" = " ++ text) ++ ";", ?_, ?_⟩
    · simp only [declaration, Option.mapM_some, htext]
      rfl
    · have hlets := ((hvariable.plain " = " (by simp [marks])).concat hcode.reads).plain ";"
        (by simp [marks])
      simpa [String.append_assoc] using hlets

namespace Stmt

open Java

/-- What a statement declares has a type and a name that can be written in Java. -/
def Bound : Stmt → Prop
  | declaration n _ _ binding _ => ∃ ty ∈ Ty.builtins, binding = some (.plain n ty) ∧ IsPath n
  | forEach n _ _ _ => IsPath n
  | _ => True

/-- The constants with quotes in a statement, as they stand in Java. -/
def quotations (stmt : Stmt) : List (List Char) := stmt.expressions.flatMap Expr.quotations

/-- The constants with quotes in statements. -/
def allQuotations (stmts : List Stmt) : List (List Char) :=
  (allExpressions stmts).flatMap Expr.quotations

theorem quotations_conditional (condition : Expr) (thenBody elseBody : List Stmt) (span : Span) :
    (conditional condition thenBody elseBody span).quotations =
      condition.quotations ++ allQuotations thenBody ++ allQuotations elseBody := by
  simp [quotations, allQuotations, expressions]

mutual

/-- A statement is emitted as lines that are laid by the braces that it stands in. -/
theorem lays_java : ∀ {stmt : Stmt} {depth : Nat} {due : List Char},
    (∀ s ∈ stmt.statements, s.Bound) → (∀ e ∈ stmt.expressions, e.Emittable) →
    due.count '\x7d' = depth →
    ∃ lines, stmt.java depth = .ok lines ∧ Lays due lines due stmt.quotations
  | expression e span, depth, due, _, he, hdepth => by
    obtain ⟨text, htext, hcode⟩ := Expr.isCode_java (List.forall_mem_singleton.mp he)
    refine ⟨[⟨depth, text ++ ";"⟩], by simp only [java, htext]; rfl, ?_⟩
    have hline := hcode.plain ";" (by simp [marks])
    simpa [quotations, expressions] using Lays.single (hline.fits hdepth)
  | declaration n typeName value binding span, depth, due, hbound, he, hdepth => by
    -- the variable is in its slot, with the name that the statement gives it
    obtain ⟨ty, hty, rfl, hn⟩ := hbound _ (List.mem_singleton_self _)
    obtain ⟨text, htext, hcode⟩ := isCode_declaration hty hn he
    refine ⟨[⟨depth, text⟩], ?_, Lays.single (hcode.fits hdepth)⟩
    change (Java.declaration (.plain n ty) value >>= fun text => .ok [Line.mk depth text]) = _
    rw [htext]
    rfl
  | assignment target value span, depth, due, _, he, hdepth => by
    obtain ⟨ht, hv⟩ := List.forall_mem_cons.mp he
    obtain ⟨first, hfirst, htarget⟩ := Expr.isCode_java ht
    obtain ⟨second, hsecond, hvalue⟩ := Expr.isCode_java (List.forall_mem_singleton.mp hv)
    refine ⟨[⟨depth, first ++ " = " ++ second ++ ";"⟩],
      by simp only [java, hfirst, hsecond]; rfl, ?_⟩
    have hboth := (htarget.plain " = " (by simp [marks])).concat hvalue.reads
    have hline := hboth.plain ";" (by simp [marks])
    simpa [quotations, expressions] using Lays.single (hline.fits hdepth)
  | conditional condition thenBody elseBody span, depth, due, hbound, he, hdepth => by
    obtain ⟨-, hbound⟩ := List.forall_mem_cons.mp hbound
    obtain ⟨hbound, hboundElse⟩ := List.forall_mem_append.mp hbound
    obtain ⟨hcondition, he⟩ := List.forall_mem_cons.mp he
    obtain ⟨he, heElse⟩ := List.forall_mem_append.mp he
    obtain ⟨text, htext, hcode⟩ := Expr.isCode_java hcondition
    obtain ⟨thenLines, hthenLines, hthen⟩ := allLays_java hbound he (count_inner hdepth)
    obtain ⟨elseLines, helseLines, helse⟩ := allLays_java hboundElse heElse (count_inner hdepth)
    have hif : IsCode "if ".toList [] := isCode_text (by simp [marks])
    have hhead : IsCode ("if (" ++ text ++ ") ").toList condition.quotations :=
      isCode_head hif rfl hcode.reads
    refine ⟨_, by simp only [java, htext, hthenLines, helseLines]; rfl, ?_⟩
    -- without lines the second block is left out, and it has no literals then
    cases elseLines with
    | nil =>
      rw [quotations_conditional, helse.eq_of_nil, List.append_nil]
      exact lays_braces hdepth hthen hhead
    | cons line lines =>
      have helses : ∀ due, Reads due " else ".toList due [] := reads_plain (by simp [marks])
      rw [quotations_conditional]
      exact lays_continued hdepth hthen hhead helses helse
  | forEach n items body span, depth, due, hbound, he, hdepth => by
    obtain ⟨hn, hbound⟩ := List.forall_mem_cons.mp hbound
    obtain ⟨hitems, he⟩ := List.forall_mem_cons.mp he
    obtain ⟨text, htext, hcode⟩ := Expr.isCode_java hitems
    obtain ⟨lines, hlines, hbody⟩ := allLays_java hbound he (count_inner hdepth)
    have hinteger : Ty.integer ∈ Ty.builtins := by simp [Ty.builtins]
    have hvariable := (isCode_variable hinteger hn).plain " : " (by simp [marks])
    have hfor : IsCode "for ".toList [] := isCode_text (by simp [marks])
    have hopening : "for (".toList = "for ".toList ++ ['('] := rfl
    have hhead := isCode_head hfor hopening (hvariable.concat hcode.reads).reads
    refine ⟨_, by simp only [java, htext, hlines]; rfl, lays_braces hdepth hbody ?_⟩
    simpa [Ty.integer, Ty.plain] using hhead
  | whileLoop condition body span, depth, due, hbound, he, hdepth => by
    obtain ⟨-, hbound⟩ := List.forall_mem_cons.mp hbound
    obtain ⟨hcondition, he⟩ := List.forall_mem_cons.mp he
    obtain ⟨text, htext, hcode⟩ := Expr.isCode_java hcondition
    obtain ⟨lines, hlines, hbody⟩ := allLays_java hbound he (count_inner hdepth)
    have hwhile : IsCode "while ".toList [] := isCode_text (by simp [marks])
    have hhead : IsCode ("while (" ++ text ++ ") ").toList condition.quotations :=
      isCode_head hwhile rfl hcode.reads
    exact ⟨_, by simp only [java, htext, hlines]; rfl, lays_braces hdepth hbody hhead⟩
  | returns value span, depth, due, _, he, hdepth => by
    obtain ⟨text, htext, hcode⟩ := Expr.isCode_java (List.forall_mem_singleton.mp he)
    refine ⟨[⟨depth, "return " ++ text ++ ";"⟩], by simp only [java, htext]; rfl, ?_⟩
    have hreturn : IsCode "return ".toList [] := isCode_text (by simp [marks])
    have hline := (hreturn.concat hcode.reads).plain ";" (by simp [marks])
    simpa [quotations, expressions] using Lays.single (hline.fits hdepth)

theorem allLays_java : ∀ {stmts : List Stmt} {depth : Nat} {due : List Char},
    (∀ s ∈ allStatements stmts, s.Bound) → (∀ e ∈ allExpressions stmts, e.Emittable) →
    due.count '\x7d' = depth →
    ∃ lines, javaAll depth stmts = .ok lines ∧ Lays due lines due (allQuotations stmts)
  | [], depth, due, _, _, _ => ⟨[], rfl, .nil⟩
  | stmt :: stmts, depth, due, hbound, he, hdepth => by
    obtain ⟨hbound, hboundRest⟩ := List.forall_mem_append.mp hbound
    obtain ⟨he, heRest⟩ := List.forall_mem_append.mp he
    obtain ⟨first, hfirst, hlays⟩ := lays_java hbound he hdepth
    obtain ⟨others, hothers, hrest⟩ := allLays_java hboundRest heRest hdepth
    refine ⟨first ++ others, by simp only [javaAll, hfirst, hothers]; rfl, ?_⟩
    simpa [allQuotations, quotations, allExpressions] using hlays.append hrest

end

end Stmt

/-! ## Programs -/

/-- What a field declares has a type and a name that can be written in Java. -/
def Field.Bound (f : Field) : Prop :=
  ∃ ty ∈ Ty.builtins, f.binding = some (.plain f.name ty) ∧ Java.IsPath f.name

/-- What a method declares has types and names that can be written in Java. -/
structure Method.Bound (m : Method) : Prop where
  /-- its function -/
  callee : ∃ f, m.callee = some f ∧ Java.IsPath f.javaName ∧ f.result ∈ Ty.builtins ∧
    ∀ ty ∈ f.parameters, ty ∈ Ty.builtins
  /-- its parameters -/
  parameters : ∀ parameter ∈ m.parameters, Java.IsPath parameter.1
  /-- the variables of its body -/
  body : ∀ stmt ∈ Stmt.allStatements m.body, stmt.Bound

/-- What a program declares can be written in Java, and its expressions can be emitted. -/
structure Program.Printable (p : Program) : Prop where
  /-- its fields -/
  fields : ∀ f ∈ p.fields, f.Bound
  /-- its methods -/
  methods : ∀ m ∈ p.methods, m.Bound
  /-- its expressions -/
  expressions : ∀ e ∈ p.expressions, e.Emittable

namespace Field

open Java

variable {due : List Char}

theorem fits_java {f : Field} (h : f.Bound) (he : ∀ e ∈ f.value.toList, e.Emittable)
    (hdepth : due.count '\x7d' = 1) :
    ∃ line, f.java = .ok line ∧ Fits due line due (f.value.toList.flatMap Expr.quotations) := by
  obtain ⟨ty, hty, hbinding, hn⟩ := h
  obtain ⟨text, htext, hcode⟩ := isCode_declaration hty hn he
  refine ⟨⟨1, text⟩, ?_, hcode.fits hdepth⟩
  rw [java, hbinding]
  change (Java.declaration (.plain f.name ty) f.value >>= fun text => .ok (Line.mk 1 text)) = _
  rw [htext]
  rfl

theorem lays_java (hdepth : due.count '\x7d' = 1) : ∀ {fields : List Field},
    (∀ f ∈ fields, f.Bound) → (∀ e ∈ fields.flatMap fun f => f.value.toList, e.Emittable) →
    ∃ lines, fields.mapM java = .ok lines ∧
      Lays due lines due ((fields.flatMap fun f => f.value.toList).flatMap Expr.quotations)
  | [], _, _ => ⟨[], rfl, .nil⟩
  | f :: fields, h, he => by
    obtain ⟨hf, hfields⟩ := List.forall_mem_cons.mp h
    obtain ⟨he, hes⟩ := List.forall_mem_append.mp he
    obtain ⟨line, hline, hfits⟩ := fits_java hf he hdepth
    obtain ⟨lines, hlines, hlays⟩ := lays_java hdepth hfields hes
    refine ⟨line :: lines, ?_, ?_⟩
    · rw [List.mapM_cons, hline, hlines]
      rfl
    · rw [List.flatMap_cons, List.flatMap_append]
      exact .line hfits hlays

end Field

namespace Method

open Java

variable {due : List Char}

theorem lays_java {m : Method} (h : m.Bound) (he : ∀ e ∈ Stmt.allExpressions m.body, e.Emittable)
    (hdepth : due.count '\x7d' = 1) :
    ∃ lines, m.java = .ok lines ∧ Lays due lines due (Stmt.allQuotations m.body) := by
  obtain ⟨f, hcallee, hpath, hresult, hparameters⟩ := h.callee
  obtain ⟨body, hbody, hlays⟩ := Stmt.allLays_java h.body he (count_inner hdepth)
  have hcodes : ∀ text ∈ f.parameters.zipWith Java.parameter m.parameters,
      IsCode text.toList [] := by
    intro text htext
    rw [← List.map_uncurry_zip_eq_zipWith] at htext
    obtain ⟨⟨ty, parameter⟩, hmem, rfl⟩ := List.mem_map.mp htext
    obtain ⟨hty, hparameter⟩ := List.of_mem_zip hmem
    exact isCode_variable (hparameters ty hty) (h.parameters parameter hparameter)
  have hread : ∀ due, Reads due
      (", ".intercalate (f.parameters.zipWith Java.parameter m.parameters)).toList due [] := by
    intro due
    have hread := reads_intercalate (List.forall₂_same.mpr hcodes) due
    rwa [List.flatMap_eq_nil_iff.mpr fun _ _ => rfl] at hread
  have hname := ((isCode_ty hresult).plain " " (by simp [marks])).concat (isCode_path hpath).reads
  have hopening : (f.result.javaName ++ " " ++ f.javaName ++ "(").toList =
      (f.result.javaName ++ " " ++ f.javaName).toList ++ ['('] := String.toList_append ..
  have hhead := isCode_head hname hopening hread
  refine ⟨_, ?_, lays_braces hdepth hlays hhead⟩
  rw [java, hcallee, hbody]
  rfl

theorem allLays_java (hdepth : due.count '\x7d' = 1) : ∀ {methods : List Method},
    (∀ m ∈ methods, m.Bound) →
    (∀ e ∈ methods.flatMap fun m => Stmt.allExpressions m.body, e.Emittable) →
    ∃ lines, methods.mapM java = .ok lines ∧
      Lays due (lines.flatMap (· ++ [Java.blank])) due
        ((methods.flatMap fun m => Stmt.allExpressions m.body).flatMap Expr.quotations)
  | [], _, _ => ⟨[], rfl, .nil⟩
  | m :: methods, h, he => by
    obtain ⟨hm, hmethods⟩ := List.forall_mem_cons.mp h
    obtain ⟨he, hes⟩ := List.forall_mem_append.mp he
    obtain ⟨first, hfirst, hlays⟩ := lays_java hm he hdepth
    obtain ⟨others, hothers, hrest⟩ := allLays_java hdepth hmethods hes
    refine ⟨first :: others, ?_, ?_⟩
    · rw [List.mapM_cons, hfirst, hothers]
      rfl
    · rw [List.flatMap_cons, List.flatMap_cons, List.flatMap_append, List.append_assoc]
      exact hlays.append (.blank hrest)

end Method

namespace Program

open Java

variable {due : List Char}

/-- The constants with quotes in a program, as they stand in Java. -/
def quotations (p : Program) : List (List Char) := p.expressions.flatMap Expr.quotations

theorem lays_javaStart (hdepth : due.count '\x7d' = 1) : Lays due javaStart due [] := by
  have hmain : IsCode "public static void main(String[] args) ".toList [] := by
    refine ⟨⟨'p', _, rfl, by decide, by decide⟩, fun due => ⟨fun found => ?_, by decide⟩⟩
    rw [List.append_nil]
    rfl
  have hexit : IsCode "System.exit(new Main().main());".toList [] := by
    refine ⟨⟨'S', _, rfl, by decide, by decide⟩, fun due => ⟨fun found => ?_, by decide⟩⟩
    rw [List.append_nil]
    rfl
  exact lays_braces hdepth (.single (hexit.fits (count_inner hdepth))) hmain

/-- A program is emitted as lines that are laid by the braces that they stand in. -/
theorem lays_java {p : Program} (h : p.Printable) :
    ∃ lines, p.javaLines = .ok lines ∧ Lays [] lines [] p.quotations := by
  have hdepth : ['\x7d'].count '\x7d' = 1 := rfl
  obtain ⟨hvalues, hbodies⟩ := List.forall_mem_append.mp h.expressions
  obtain ⟨fields, hfields, hfieldLines⟩ := Field.lays_java hdepth h.fields hvalues
  obtain ⟨methods, hmethods, hmethodLines⟩ := Method.allLays_java hdepth h.methods hbodies
  have hclass : Fits [] ⟨0, "public class Main \x7b"⟩ ['\x7d'] [] := by
    refine ⟨⟨'p', _, rfl, by decide, rfl⟩, fun found => ?_, by decide⟩
    rw [List.append_nil]
    rfl
  have hfront : Lays ['\x7d'] (if fields.isEmpty then [] else fields ++ [Java.blank]) ['\x7d']
      ((p.fields.flatMap fun f => f.value.toList).flatMap Expr.quotations) := by
    cases fields with
    | nil => exact hfieldLines
    | cons line lines =>
      have hlays := hfieldLines.append (.blank .nil)
      rwa [List.append_nil] at hlays
  refine ⟨_, by simp only [javaLines, hfields, hmethods]; rfl, ?_⟩
  have hstart := (Lays.line hclass (.blank hfront)).append (lays_javaStart hdepth)
  have hbody := (hstart.append (.blank .nil)).append hmethodLines
  simpa [quotations, expressions] using hbody.append (.single (fits_closing rfl))

/-- A program whose parts can be emitted is emitted as a text that is laid out as it should be, with
the constants of the program as its literals. -/
theorem wellLaid_java {p : Program} (h : p.Printable) :
    ∃ text, p.java = .ok text ∧ WellLaid text.toList p.quotations := by
  obtain ⟨lines, hlines, hlays⟩ := lays_java h
  refine ⟨String.join (lines.map Line.render), by rw [java, hlines]; rfl, ?_⟩
  have htext : (String.join (lines.map Line.render)).toList = rendered lines := by
    rw [String.toList_join, List.flatMap_map, rendered]
  rw [htext]
  exact ⟨hlays.run [], (Scanner.sound_start.run (hlays.run [])).found, hlays.indented []⟩

end Program

end TeachLang
