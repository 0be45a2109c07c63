import DocCoverage.Proofs.Grammar.Docstrings
import DocCoverage.Proofs.Sketch.Brackets
import DocCoverage.Proofs.Sketch.Statements

/-!
# Sketches of functions

A sketch is the source of one function that declares an interface and has a docstring for an
interface, its own or another. The scanner finds in it a function with a parameter list, a
docstring and the statements, and nothing else.
-/
namespace DocCoverage

open Rule (standard)
open Standard (indent line docText)
open Text (isAsciiWord joinWith)

/-- The statements in the body of a function with an interface. -/
def Interface.statements (i : Interface) : List Statement :=
  List.replicate i.returns .returns ++ (List.replicate i.yields .yields ++ i.raises.map .raises)

/-- The source of a function that declares one interface and documents another. -/
def sketch (declared documented : Interface) : Text :=
  "def f(" ++ joinWith ", " declared.inputs ++ "):\n" ++
    line "\"\"\"" ++ line "Summary" ++ "\n" ++
    documented.fields.flatMap (fun f => line f.text) ++ line "\"\"\"" ++
    declared.statements.flatMap (fun s => line s.text) ++ line "pass"

namespace Sketch

def parameterList (i : Interface) : Text := '(' :: (joinWith ", " i.inputs ++ [')'])

/-- What stands behind the docstring. -/
def body (sts : List Statement) : Text :=
  '\n' :: (sts.flatMap (fun s => line s.text) ++ line ['p', 'a', 's', 's'])

theorem sketch_eq (declared documented : Interface) :
    sketch declared documented = 'd' :: (['e', 'f', ' ', 'f'] ++ (parameterList declared ++
      (([':'] ++ ('\n' :: indent)) ++
        (docText documented.fields ++ body declared.statements)))) := by
  unfold sketch parameterList body docText Standard.fieldLines Standard.closing line indent
  simp only [String.reduceToList, List.append_assoc, List.cons_append, List.nil_append]

theorem body_cons (st : Statement) (sts : List Statement) :
    body (st :: sts) = ('\n' :: indent) ++ (st.text ++ body sts) := by
  simp [body, line]

variable {options : ScanOptions} {levels : Nat} {o : Opening} {p : Progress} {rest : Text}

theorem joinWith_listed {names : List Text} (h : ∀ n ∈ names, n.AsciiIdentifier) :
    ∀ c ∈ joinWith ", " names, isListed c = true := by
  have hname : ∀ n ∈ names, ∀ c ∈ n, isListed c = true :=
    fun n hn c hc => isListed_of_isAsciiWord ((h n hn).word c hc)
  have hsep : ∀ c ∈ (", " : Text), isListed c = true := List.all_eq_true.mp (by decide +kernel)
  clear h
  generalize (", " : Text) = sep at hsep
  fun_induction joinWith sep names with
  | case1 => simp
  | case2 t => exact hname t List.mem_cons_self
  | case3 t ts _ ih =>
    intro c hc
    rcases List.mem_append.mp hc with hc | hc
    · rcases List.mem_append.mp hc with hc | hc
      · exact hname t List.mem_cons_self c hc
      · exact hsep c hc
    · exact ih (fun n hn => hname n (List.mem_cons_of_mem t hn)) c hc

theorem scanSpan_list (hexpired : options.Untimed) {t : Text}
    (ht : ∀ c ∈ t, isListed c = true) (hkind : o.kind = .bracket)
    (htext : o.text = '(' :: (t ++ ')' :: rest)) :
    ∃ r, scanSpan standard options (levels + 1) o = .ok r ∧
      o.Covers ('(' :: (t ++ [')'])) [] r := by
  have hslash : '\\' ∉ t := fun hmem => ne_of_isListed (ht _ hmem) (by decide) rfl
  have hparts : o.text = Delimiter.round.enclose t ++ rest := by
    rw [htext, Delimiter.enclose]
    simp [Delimiter.opening, Delimiter.closing]
  obtain ⟨q, hruns⟩ : ∃ q, Runs standard options levels o (o.begin ['(']) t (')' :: rest) [] q := by
    refine exists_runs_quiet (Nat.not_lt_zero _) fun a c e hsplit => ?_
    rw [hkind]
    exact quiet_listed (b := .round) (ht c (by simp [hsplit]))
      (fun x hx => ht x (by simp [hsplit, hx])) (by decide) _
  exact scanSpan_enclosed (b := .round) hexpired hkind hparts hslash hruns

theorem scanSpan_quoted (hexpired : options.Untimed) {t : Text} (hquote : '"' ∉ t)
    (hslash : '\\' ∉ t) (hkind : o.kind = .doubleDocstring)
    (htext : o.text = ['"', '"', '"'] ++ (t ++ (['"', '"', '"'] ++ rest))) :
    ∃ r, scanSpan standard options (levels + 1) o = .ok r ∧
      o.Covers (['"', '"', '"'] ++ (t ++ ['"', '"', '"'])) [] r := by
  have hidle : ∀ back t, RuleTable.dispatch standard (standard .doubleDocstring) ⟨back, t⟩ = none :=
    fun back t => RuleTable.dispatch_eq_none fun k hk => absurd hk List.not_mem_nil
  have hescape : '\\' ∉ t.reverse ++ ['"', '"', '"'] := by
    intro hmem
    rcases List.mem_append.mp hmem with hmem | hmem
    · exact hslash (List.mem_reverse.mp hmem)
    · exact absurd hmem (by decide)
  obtain ⟨kind, start, indent, text⟩ := o
  obtain rfl : kind = .doubleDocstring := hkind
  refine scanSpan_leaf (o := ⟨.doubleDocstring, start, indent, text⟩) hexpired htext rfl rfl rfl
    ?_ (hidle _ _) ?_ (Rule.standard_regular.resume_le _)
  · rintro a d b rfl
    refine ⟨hidle _ _, End.closes_eq_false ?_⟩
    rw [Bool.eq_false_iff]
    intro h
    obtain ⟨r, hr⟩ := Text.startsWith_iff.mp h
    obtain rfl : d = '"' := (List.cons.inj hr).1
    exact hquote (by simp)
  · exact End.closes_eq_true hescape rfl

/-- What stands between the quotes of a docstring. -/
def docInner (fs : List Field) : Text :=
  '\n' :: (Standard.summary ++ (fs.flatMap (fun f => line f.text) ++ indent))

theorem docText_eq_quoted (fs : List Field) :
    docText fs = ['"', '"', '"'] ++ (docInner fs ++ ['"', '"', '"']) := by
  rw [Standard.docText_eq]
  simp [docInner, Standard.fieldLines, Standard.closing]

theorem not_mem_docInner {fs : List Field} (hfs : ∀ f ∈ fs, f.Named) {c : Char}
    (hc : isAsciiWord c = false) (hmarks : c ∉ [' ', '.', ':', '\n']) : c ∉ docInner fs := by
  have hmarks' : c ∉ [' ', '.', ':'] := fun hmem => hmarks (List.mem_append_left ['\n'] hmem)
  have hfeed : c ∉ ['\n'] := fun hmem => hmarks (List.mem_append_right [' ', '.', ':'] hmem)
  have hindent : c ∉ indent := by
    intro hmem
    have hblank := Standard.indent_blank c hmem
    rw [beq_iff_eq] at hblank
    exact hmarks (by rw [hblank]; decide)
  have hline : ∀ t : Text, c ∉ t → c ∉ line t := by
    intro t ht hmem
    simp only [line, List.mem_append] at hmem
    exact hmem.elim hindent (·.elim ht hfeed)
  have hword : c ∉ ['S', 'u', 'm', 'm', 'a', 'r', 'y'] := by
    intro hmem
    have hletters : ∀ d ∈ ['S', 'u', 'm', 'm', 'a', 'r', 'y'], isAsciiWord d = true :=
      List.all_eq_true.mp rfl
    exact Text.ne_of_isAsciiWord (hletters c hmem) hc rfl
  intro hmem
  simp only [docInner, Standard.summary, List.mem_cons, List.mem_append, List.mem_flatMap] at hmem
  rcases hmem with hmem | (hmem | hmem) | ⟨f, hf, hmem⟩ | hmem
  · exact hfeed (List.mem_singleton.mpr hmem)
  · exact hline _ hword hmem
  · exact hfeed (by simpa using hmem)
  · exact hline _ (Field.not_mem_text (hfs f hf) hc hmarks') hmem
  · exact hindent hmem

end Sketch

end DocCoverage
