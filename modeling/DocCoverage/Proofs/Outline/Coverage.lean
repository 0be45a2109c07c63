import DocCoverage.Proofs.Grammar.Standard
import DocCoverage.Proofs.Outline.Walk
import DocCoverage.Proofs.Text.Sorted

/-!
# What the flags of a record stand for

The documented flag of a definition is settled on the lists read off its header and docstring, and
the record counts what is missing on sorted sets of its own. Both say the same: a definition is
documented when its record shows a docstring of the right form with nothing missing and the same
holds of every definition nested in it.

The two flags about docstrings are not carried upwards like that. Those of the file look at the
outermost definitions alone, so a definition inside another one can lack what the file claims.
-/
namespace DocCoverage

/-- The record shows a docstring of the right form that leaves out nothing. -/
structure Record.Accounted (r : Record) : Prop where
  formatted : r.formattedMultiline = true
  inputs : r.missingInputs = []
  parameters : r.missingParameters = []
  raises : r.missingRaises = []
  returns : r.returns = r.foundReturns
  yields : r.yields = r.foundYields

instance (r : Record) : Decidable r.Accounted :=
  decidable_of_iff (r.formattedMultiline = true ∧ r.missingInputs = [] ∧
      r.missingParameters = [] ∧ r.missingRaises = [] ∧ r.returns = r.foundReturns ∧
      r.yields = r.foundYields)
    ⟨fun ⟨formatted, inputs, parameters, raises, returns, yields⟩ =>
      ⟨formatted, inputs, parameters, raises, returns, yields⟩,
    fun h => ⟨h.formatted, h.inputs, h.parameters, h.raises, h.returns, h.yields⟩⟩

theorem Record.missing_sorted_eq_nil {declared found : List Text} :
    missing (Text.sorted declared) (Text.sorted found) = [] ↔ ∀ t ∈ declared, t ∈ found := by
  simp only [missing, List.filter_eq_nil_iff, Bool.not_eq_true', Bool.not_eq_false,
    List.contains_iff_mem, (Text.lists_sorted declared).mem_iff, (Text.lists_sorted found).mem_iff]

namespace Findings

variable {gs : GrammarSet} {kind : SpanKind} {sig : Signature} {s : Span} {f : Findings}

theorem covers_iff : covers kind sig f = true ↔
    (∀ t ∈ sig.documentable kind, t ∈ f.inputs) ∧ f.returns = sig.returns ∧
      f.yields = sig.yields ∧ ∀ t ∈ sig.raises, t ∈ f.raises := by
  simp only [covers, Bool.and_eq_true, List.all_eq_true, List.contains_iff_mem, beq_iff_eq,
    and_assoc]

/-- Findings are complete when the grammar accepts the docstring and it covers what is declared. -/
theorem complete_ofSpan : (ofSpan gs sig s).complete =
    ((ofSpan gs sig s).matched && covers s.kind sig (ofSpan gs sig s)) := by
  unfold ofSpan
  split
  · unfold ofDocstring
    split <;> rfl
  · rfl

end Findings

/-- A class declares no parameters and a callable no attributes, so that all declared names are to
be documented. -/
theorem Signature.forall_documentable {s : Span} {p : Text → Prop} :
    (∀ t ∈ (ofSpan s).documentable s.kind, p t) ↔
      (∀ t ∈ (ofSpan s).inputs, p t) ∧ ∀ t ∈ (ofSpan s).attributes, s.kind = .classDef ∧ p t := by
  by_cases hclass : s.kind = .classDef
  · simp [ofSpan, documentable, hclass]
  · have hnone : (ofSpan s).attributes = [] := by
      unfold ofSpan
      rw [if_neg (by simpa using hclass)]
      split <;> rfl
    simp [documentable, hclass, hnone]

namespace Outline

variable {gs : GrammarSet} {name : Text} {s : Span} {o : Outline}

/-- The record of a node is accounted for by what the node declares and what was found. -/
theorem accounted_ofNode {path source : Text} {warnings : List Warning} :
    (Record.ofNode path source warnings o).Accounted ↔ o.coverage.formatted = true ∧
      (∀ t ∈ o.signature.inputs, t ∈ o.findings.inputs) ∧
      (∀ t ∈ o.signature.attributes, o.kind = .classDef ∧ t ∈ o.findings.inputs) ∧
      (∀ t ∈ o.signature.raises, t ∈ o.findings.raises) ∧
      o.signature.returns = o.findings.returns ∧ o.signature.yields = o.findings.yields := by
  have hparameters : (Record.ofNode path source warnings o).missingParameters = [] ↔
      ∀ t ∈ o.signature.attributes, o.kind = .classDef ∧ t ∈ o.findings.inputs := by
    by_cases hclass : o.kind = .classDef
    · simp only [Record.ofNode, hclass, beq_self_eq_true, if_true, true_and,
        Record.missing_sorted_eq_nil]
    · have hother : (o.kind == .classDef) = false := by simpa using hclass
      simp only [Record.ofNode, hother, Bool.false_eq_true, if_false, hclass, false_and]
      change Record.missing _ (Text.sorted []) = [] ↔ _
      rw [Record.missing_sorted_eq_nil]
      simp
  constructor
  · intro h
    exact ⟨h.formatted, Record.missing_sorted_eq_nil.mp h.inputs, hparameters.mp h.parameters,
      Record.missing_sorted_eq_nil.mp h.raises, h.returns, h.yields⟩
  · rintro ⟨hformatted, hinputs, hattributes, hraises, hreturns, hyields⟩
    exact ⟨hformatted, Record.missing_sorted_eq_nil.mpr hinputs, hparameters.mpr hattributes,
      Record.missing_sorted_eq_nil.mpr hraises, hreturns, hyields⟩

theorem complete_findings : (ofSpan gs name s).findings.complete =
    ((ofSpan gs name s).findings.matched &&
      Findings.covers s.kind (Signature.ofSpan s) (ofSpan gs name s).findings) := by
  have hfindings : (ofSpan gs name s).findings =
      if isTainted s then {} else Findings.ofSpan gs (Signature.ofSpan s) s := rfl
  rw [hfindings]
  split
  · rfl
  · exact Findings.complete_ofSpan

theorem coverage_definition (h : s.kind.isDefinition = true) :
    (ofSpan gs name s).coverage = Coverage.ofDefinition s (ofSpan gs name s).findings
      ((ofSpan gs name s).children.map (·.coverage)) := by
  have hfile : ¬(s.kind == .file) = true := by
    intro hkind
    rw [eq_of_beq hkind] at h
    cases h
  show Coverage.ofSpan s _ _ = _
  rw [Coverage.ofSpan, if_neg hfile]
  rfl

theorem complete_findings_iff (h : s.kind.isDefinition = true) (path source : Text)
    (warnings : List Warning) :
    (ofSpan gs name s).findings.complete = true ↔
      (Record.ofNode path source warnings (ofSpan gs name s)).Accounted := by
  rw [complete_findings, Bool.and_eq_true, Findings.covers_iff, Signature.forall_documentable,
    accounted_ofNode, coverage_definition h]
  show _ ↔ (ofSpan gs name s).findings.matched = true ∧ _
  constructor
  · rintro ⟨hmatched, ⟨hinputs, hattributes⟩, hreturns, hyields, hraises⟩
    exact ⟨hmatched, hinputs, hattributes, hraises, hreturns.symm, hyields.symm⟩
  · rintro ⟨hmatched, hinputs, hattributes, hraises, hreturns, hyields⟩
    exact ⟨hmatched, ⟨hinputs, hattributes⟩, hreturns.symm, hyields.symm, hraises⟩

theorem complete_definition (h : s.kind.isDefinition = true) :
    (ofSpan gs name s).coverage.complete = true ↔ (ofSpan gs name s).findings.complete = true ∧
      ∀ c ∈ (ofSpan gs name s).children, c.coverage.complete = true := by
  rw [coverage_definition h]
  simp [Coverage.ofDefinition]

theorem complete_descendants_iff :
    (∀ d ∈ (ofSpan gs name s).descendants, d.coverage.complete = true) ↔
      ∀ c ∈ (ofSpan gs name s).children, c.coverage.complete = true := by
  refine ⟨fun h c hc => h c (child_mem_descendants hc), ?_⟩
  revert name
  induction s using Span.descent_induction with
  | node s ih =>
    intro name h d hd
    obtain ⟨c, hc, hdc⟩ := mem_descendants.mp hd
    have hcomplete := h c hc
    obtain ⟨t, ht, hdefinition, rfl⟩ := exists_definition_of_mem_nested hc
    rcases hdc with rfl | hdc
    · exact hcomplete
    · exact ih t ht ((complete_definition hdefinition).mp hcomplete).2 d hdc

theorem coverage_file (h : s.kind = .file) :
    (ofSpan gs name s).coverage =
      Coverage.ofFile s ((ofSpan gs name s).children.map (·.coverage)) := by
  show Coverage.ofSpan s _ _ = _
  rw [Coverage.ofSpan, if_pos (beq_iff_eq.mpr h)]
  rfl

theorem complete_file (h : s.kind = .file) : (ofSpan gs name s).coverage.complete = true ↔
    ∀ c ∈ (ofSpan gs name s).children, c.coverage.complete = true := by
  rw [coverage_file h, Coverage.ofFile]
  split
  · rename_i hnone
    have hchildren : (ofSpan gs name s).children = [] := by simpa using hnone
    simp [hchildren]
  · simp

end Outline

section

variable {gs : GrammarSet} {options : ScanOptions} {path source : Text} {a : Analysis}

/-- The records of an analysis are those of the file and of its definitions. A definition is
documented when its record is accounted for and every definition nested in it is documented; the
file is when every definition is. -/
theorem documented_iff (h : analyze gs options path source = .ok a) :
    a.records false = a.recordOf a.outline :: a.outline.descendants.map a.recordOf ∧
      (a.recordOf a.outline).kind = .file ∧
      ((a.recordOf a.outline).documented = true ↔
        ∀ o ∈ a.outline.descendants, (a.recordOf o).documented = true) ∧
      ∀ o ∈ a.outline.descendants, (a.recordOf o).kind.isDefinition = true ∧
        ((a.recordOf o).documented = true ↔ (a.recordOf o).Accounted ∧
          ∀ d ∈ o.descendants, (a.recordOf d).documented = true) := by
  obtain ⟨houtline, hfile⟩ := analyze_outline h
  refine ⟨a.records_eq, ?_, ?_, fun o ho => ?_⟩
  · show a.outline.kind = .file
    rw [houtline]
    exact hfile
  · show a.outline.coverage.complete = true ↔
      ∀ o ∈ a.outline.descendants, o.coverage.complete = true
    rw [houtline, Outline.complete_file hfile, Outline.complete_descendants_iff]
  · rw [houtline] at ho
    obtain ⟨s, -, hdefinition, rfl⟩ := Outline.exists_definition_of_mem_descendants ho
    refine ⟨hdefinition, ?_⟩
    show (Outline.ofSpan gs s.name s).coverage.complete = true ↔ _ ∧
      ∀ d ∈ (Outline.ofSpan gs s.name s).descendants, d.coverage.complete = true
    rw [Outline.complete_definition hdefinition, Outline.complete_descendants_iff,
      Outline.complete_findings_iff hdefinition]
    rfl

theorem analyze_ok_of_any {test : Analysis → Bool}
    (h : (analyze gs options path source).toOption.any test = true) :
    ∃ a, analyze gs options path source = .ok a ∧ test a = true := by
  cases ha : analyze gs options path source with
  | error e =>
    rw [ha] at h
    cases h
  | ok a =>
    rw [ha] at h
    exact ⟨a, rfl, h⟩

/-- A function with a docstring, around one without. -/
def nestedSource : Text :=
  "def f():\n    \"\"\"\n    Doc.\n    \"\"\"\n    def g():\n        pass\n"

/-- The outer function leaves out nothing, and is not documented because of the inner one. -/
theorem documented_iff_nested : ∃ a,
    analyze ⟨.standard, .standard, .standard⟩ {} "m.py" nestedSource = .ok a ∧
      ∃ o ∈ a.outline.descendants, (a.recordOf o).Accounted ∧ (a.recordOf o).documented = false ∧
        ∃ d ∈ o.descendants, (a.recordOf d).documented = false := by
  have htest : (analyze ⟨.standard, .standard, .standard⟩ {} "m.py" nestedSource).toOption.any
      (fun a => a.outline.descendants.any fun o =>
        (a.recordOf o).Accounted && !(a.recordOf o).documented) = true := by
    decide +kernel
  obtain ⟨a, ha, htest⟩ := analyze_ok_of_any htest
  obtain ⟨o, ho, hboth⟩ := List.any_eq_true.mp htest
  simp only [Bool.and_eq_true, decide_eq_true_eq, Bool.not_eq_true'] at hboth
  obtain ⟨haccounted, hundocumented⟩ := hboth
  refine ⟨a, ha, o, ho, haccounted, hundocumented, ?_⟩
  by_contra hnone
  have hnested : ∀ d ∈ o.descendants, (a.recordOf d).documented = true := by
    intro d hd
    by_contra hd'
    exact hnone ⟨d, hd, Bool.eq_false_iff.mpr hd'⟩
  rw [((documented_iff ha).2.2.2 o ho).2.mpr ⟨haccounted, hnested⟩] at hundocumented
  cases hundocumented

/-- Every outermost definition has the flag, and one nested in another definition lacks it. -/
def Analysis.Hides (a : Analysis) (flag : Record → Bool) : Prop :=
  (∀ o ∈ a.outline.children, flag (a.recordOf o) = true) ∧
    ∃ o ∈ a.outline.descendants, flag (a.recordOf o) = false

/-- Where no definition is hidden, the outermost ones speak for all. -/
theorem Analysis.not_hides_iff {flag : Record → Bool} :
    ((∀ o ∈ a.outline.children, flag (a.recordOf o) = true) ↔
        ∀ o ∈ a.outline.descendants, flag (a.recordOf o) = true) ↔ ¬a.Hides flag := by
  constructor
  · rintro hiff ⟨houter, o, ho, hlacks⟩
    rw [hiff.mp houter o ho] at hlacks
    cases hlacks
  · intro hnot
    refine ⟨fun houter o ho => ?_, fun hall o ho => hall o (Outline.child_mem_descendants ho)⟩
    by_contra hlacks
    exact hnot ⟨houter, o, ho, Bool.eq_false_iff.mpr hlacks⟩

/-- The coverage of a file with definitions, from that of the outermost ones. -/
theorem coverage_of_definitions (h : analyze gs options path source = .ok a)
    (hdefinition : ∃ r ∈ a.records false, r.kind.isDefinition = true) :
    a.outline.coverage =
      { basic := Coverage.hasComment a.tree
        multiline := Coverage.hasDocstring a.tree || a.outline.children.all (·.coverage.multiline)
        formatted := a.outline.children.all (·.coverage.formatted)
        complete := a.outline.children.all (·.coverage.complete) } := by
  obtain ⟨houtline, hfile⟩ := analyze_outline h
  have hchildren : a.outline.children ≠ [] := by
    intro hnone
    rw [a.records_eq, Outline.descendants_eq_nil_iff.mpr hnone] at hdefinition
    obtain ⟨r, hr, hkind⟩ := hdefinition
    obtain rfl := List.mem_singleton.mp hr
    have hroot : (a.recordOf a.outline).kind = .file := by
      rw [houtline]
      exact hfile
    rw [hroot] at hkind
    cases hkind
  have hempty : (a.outline.children.map (·.coverage)).isEmpty = false := by simpa using hchildren
  have hcoverage : a.outline.coverage =
      Coverage.ofFile a.tree (a.outline.children.map (·.coverage)) := by
    rw [houtline]
    exact Outline.coverage_file hfile
  rw [hcoverage, Coverage.ofFile, hempty]
  simp only [Bool.false_eq_true, if_false, List.all_map, Function.comp_def]

theorem formatted_file (h : analyze gs options path source = .ok a)
    (hdefinition : ∃ r ∈ a.records false, r.kind.isDefinition = true) :
    (a.recordOf a.outline).formattedMultiline = true ↔
      ∀ o ∈ a.outline.children, (a.recordOf o).formattedMultiline = true := by
  change a.outline.coverage.formatted = true ↔ _
  rw [coverage_of_definitions h hdefinition]
  exact List.all_eq_true

theorem multiline_file (h : analyze gs options path source = .ok a)
    (hdefinition : ∃ r ∈ a.records false, r.kind.isDefinition = true) :
    (a.recordOf a.outline).multilineComments = true ↔
      (∃ c ∈ a.tree.children, c.kind.isDocstring = true) ∨
        ∀ o ∈ a.outline.children, (a.recordOf o).multilineComments = true := by
  change a.outline.coverage.multiline = true ↔ _
  rw [coverage_of_definitions h hdefinition, Bool.or_eq_true]
  exact or_congr List.any_eq_true List.all_eq_true

/-- In a file with definitions, the flags of the file about docstrings are those of its outermost
definitions. They speak for all its definitions unless one is hidden. -/
theorem file_flags (h : analyze gs options path source = .ok a)
    (hdefinition : ∃ r ∈ a.records false, r.kind.isDefinition = true) :
    a.records false = a.recordOf a.outline :: a.outline.descendants.map a.recordOf ∧
      ((a.recordOf a.outline).formattedMultiline = true ↔
        ∀ o ∈ a.outline.children, (a.recordOf o).formattedMultiline = true) ∧
      ((a.recordOf a.outline).multilineComments = true ↔
        (∃ c ∈ a.tree.children, c.kind.isDocstring = true) ∨
          ∀ o ∈ a.outline.children, (a.recordOf o).multilineComments = true) ∧
      (((a.recordOf a.outline).formattedMultiline = true ↔
        ∀ o ∈ a.outline.descendants, (a.recordOf o).formattedMultiline = true) ↔
          ¬a.Hides (·.formattedMultiline)) ∧
      (((a.recordOf a.outline).multilineComments = true ↔
        (∃ c ∈ a.tree.children, c.kind.isDocstring = true) ∨
          ∀ o ∈ a.outline.descendants, (a.recordOf o).multilineComments = true) ↔
          (∃ c ∈ a.tree.children, c.kind.isDocstring = true) ∨
            ¬a.Hides (·.multilineComments)) := by
  have hformatted := formatted_file h hdefinition
  have hmultiline := multiline_file h hdefinition
  refine ⟨a.records_eq, hformatted, hmultiline, ?_, ?_⟩
  · rw [hformatted, Analysis.not_hides_iff]
  · rw [hmultiline, ← Analysis.not_hides_iff]
    by_cases hdoc : ∃ c ∈ a.tree.children, c.kind.isDocstring = true
    · simp only [hdoc, true_or]
    · simp only [hdoc, false_or]

theorem hides_nestedSource : ∃ a,
    analyze ⟨.standard, .standard, .standard⟩ {} "m.py" nestedSource = .ok a ∧
      (∃ r ∈ a.records false, r.kind.isDefinition = true) ∧
      a.Hides (·.formattedMultiline) ∧ a.Hides (·.multilineComments) := by
  have htest : (analyze ⟨.standard, .standard, .standard⟩ {} "m.py" nestedSource).toOption.any
      (fun a => (a.records false).any (·.kind.isDefinition) &&
        (a.outline.children.all fun o =>
          (a.recordOf o).formattedMultiline && (a.recordOf o).multilineComments) &&
        a.outline.descendants.any fun o =>
          !(a.recordOf o).formattedMultiline && !(a.recordOf o).multilineComments) = true := by
    decide +kernel
  obtain ⟨a, ha, htest⟩ := analyze_ok_of_any htest
  simp only [Bool.and_eq_true, List.any_eq_true, List.all_eq_true, Bool.not_eq_true'] at htest
  obtain ⟨⟨hdefinition, houter⟩, o, ho, hformatted, hmultiline⟩ := htest
  exact ⟨a, ha, hdefinition, ⟨fun c hc => (houter c hc).1, o, ho, hformatted⟩,
    fun c hc => (houter c hc).2, o, ho, hmultiline⟩

/-- The file has both flags, which the inner function lacks. -/
theorem file_flags_nested : ∃ a,
    analyze ⟨.standard, .standard, .standard⟩ {} "m.py" nestedSource = .ok a ∧
      (∃ r ∈ a.records false, r.kind.isDefinition = true) ∧
      (a.recordOf a.outline).formattedMultiline = true ∧
      (a.recordOf a.outline).multilineComments = true ∧
      (∃ o ∈ a.outline.descendants, (a.recordOf o).formattedMultiline = false) ∧
      ∃ o ∈ a.outline.descendants, (a.recordOf o).multilineComments = false := by
  obtain ⟨a, ha, hdefinition, hformatted, hmultiline⟩ := hides_nestedSource
  obtain ⟨-, hfile, hfile', -⟩ := file_flags ha hdefinition
  exact ⟨a, ha, hdefinition, hfile.mpr hformatted.1, hfile'.mpr (Or.inr hmultiline.1),
    hformatted.2, hmultiline.2⟩

/-- The flags of a file do not speak for the definitions nested in others. -/
theorem file_flags_hidden :
    ¬∀ (gs : GrammarSet) (options : ScanOptions) (path source : Text) (a : Analysis),
      analyze gs options path source = .ok a →
      (∃ r ∈ a.records false, r.kind.isDefinition = true) →
      ((a.recordOf a.outline).formattedMultiline = true ↔
        ∀ o ∈ a.outline.descendants, (a.recordOf o).formattedMultiline = true) ∧
      ((a.recordOf a.outline).multilineComments = true ↔
        (∃ c ∈ a.tree.children, c.kind.isDocstring = true) ∨
          ∀ o ∈ a.outline.descendants, (a.recordOf o).multilineComments = true) := by
  intro hall
  obtain ⟨a, ha, hdefinition, ⟨houter, o, ho, hlacks⟩, -⟩ := hides_nestedSource
  obtain ⟨hformatted, -⟩ := hall _ _ _ _ a ha hdefinition
  have hflag := hformatted.mp ((formatted_file ha hdefinition).mpr houter) o ho
  exact Bool.eq_false_iff.mp hlacks hflag

end

end DocCoverage
