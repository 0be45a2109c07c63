import DocCoverage.Proofs.Outline.Coverage
import DocCoverage.Proofs.Outline.Order
import DocCoverage.Proofs.Scan.Unterminated
import Mathlib.Data.List.Sort

/-!
# Warnings and tainted nodes

A node is tainted when a span below its own ran into the end of the file. Its record never looks at
the tree: it takes the warnings of the file that start in its range. Both mean the same spans,
since an unterminated span that starts inside another span stands in it.
-/
namespace DocCoverage

def Warning.ofSpan (source : Text) (s : Span) : Warning := ⟨s.kind, s.start, lineOf source s.start⟩

section

variable {options : ScanOptions} {source : Text} {tree s d : Span}

/-- An unterminated span starts in the range of a closed one if and only if it stands in it. -/
theorem scan_starts_in_iff (h : scan options source = .ok tree) (hs : s ∈ tree.preorder)
    (hclosed : s.unterminated = false) (hd : d ∈ tree.preorder) (hopen : d.unterminated = true) :
    s.start ≤ d.start ∧ d.start < s.stop ↔ d ∈ s.descendants := by
  have hplaced := Rule.standard_regular.scan_placed h
  have hbelow : ∀ q ∈ tree.preorder, ∀ e ∈ q.preorder, (⟨.file, 0, 0, source⟩ : Opening).Placed
      Rule.standard e := fun q hq e he => hplaced e (Span.preorder_trans he hq)
  have hne : d ≠ s := by
    rintro rfl
    rw [hclosed] at hopen
    cases hopen
  have hkind : d.kind ≠ .file :=
    SpanKind.ne_file_of_isDelimited (scan_unterminated h hd hopen).1
  constructor
  · rintro ⟨hfirst, hlast⟩
    have hlt := Opening.Placed.start_lt_stop hplaced d (scan_unterminated_mem h hd hopen)
    rcases Opening.Placed.nested_or_disjoint hplaced s hs d hd with hin | hout | hle | hle
    · exact (List.mem_cons.mp hin).resolve_left hne
    · -- a span around this one would start before it
      have hout := (List.mem_cons.mp hout).resolve_left hne.symm
      have := Opening.Placed.start_lt Rule.standard_regular (hbelow d hd) hkind s hout
      omega
    · omega
    · omega
  · intro hin
    have hfirst := Opening.Placed.start_le (hbelow s hs) d (List.mem_cons_of_mem s hin)
    have hlast := Opening.Placed.stop_le (hbelow s hs) d (List.mem_cons_of_mem s hin)
    have hlt := Opening.Placed.start_lt_stop (hbelow s hs) d hin
    exact ⟨hfirst, by omega⟩

/-- The unterminated spans that start in the range of a closed span are those that stand in it. -/
theorem scan_filter_range (h : scan options source = .ok tree) (hs : s ∈ tree.preorder)
    (hclosed : s.unterminated = false) :
    (tree.preorder.filter (·.unterminated)).filter
        (fun d => s.start ≤ d.start && d.start < s.stop) =
      s.descendants.filter (·.unterminated) := by
  have hplaced := Rule.standard_regular.scan_placed h
  have hall : (tree.preorder.filter (·.unterminated)).Pairwise fun q d => q.start < d.start := by
    rw [Span.preorder, List.filter_cons, if_neg (by simp [scan_file_closed h])]
    exact (scan_pairwise_start h).filter _
  have hpart : (s.descendants.filter (·.unterminated)).Pairwise fun q d => q.start < d.start :=
    (Opening.Placed.pairwise_start_lt Rule.standard_regular
      fun e he => hplaced e (Span.preorder_trans he hs)).filter _
  -- both lists increase, so it is enough that they have the same members
  have : Std.Irrefl fun q d : Span => q.start < d.start := ⟨fun q => Nat.lt_irrefl q.start⟩
  have : Std.Antisymm fun q d : Span => q.start < d.start :=
    ⟨fun q d hqd hdq => absurd hqd (Nat.lt_asymm hdq)⟩
  refine (hall.filter _).eq_of_mem_iff hpart fun d => ?_
  simp only [List.mem_filter, Bool.and_eq_true, decide_eq_true_eq]
  constructor
  · rintro ⟨⟨hd, hopen⟩, hrange⟩
    exact ⟨(scan_starts_in_iff h hs hclosed hd hopen).mp hrange, hopen⟩
  · rintro ⟨hd, hopen⟩
    have hmem := Span.preorder_trans (List.mem_cons_of_mem s hd) hs
    exact ⟨⟨hmem, hopen⟩, (scan_starts_in_iff h hs hclosed hmem hopen).mpr hd⟩

end

namespace Outline

variable {gs : GrammarSet} {name : Text} {s : Span}

theorem findings_of_tainted (h : (ofSpan gs name s).tainted = true) :
    (ofSpan gs name s).findings = {} :=
  if_pos h

theorem coverage_of_tainted (hdefinition : s.kind.isDefinition = true)
    (h : (ofSpan gs name s).tainted = true) :
    (ofSpan gs name s).coverage.formatted = false ∧
      (ofSpan gs name s).coverage.complete = false := by
  rw [coverage_definition hdefinition, findings_of_tainted h]
  exact ⟨rfl, rfl⟩

theorem tainted_iff (hclosed : s.unterminated = false) :
    (ofSpan gs name s).tainted = true ↔ s.descendants.filter (·.unterminated) ≠ [] := by
  show s.preorder.any (·.unterminated) = true ↔ _
  rw [Span.preorder, List.any_cons, hclosed, Bool.false_or, ne_eq, List.filter_eq_nil_iff,
    List.any_eq_true]
  simp

end Outline

section

variable {gs : GrammarSet} {options : ScanOptions} {path source : Text} {a : Analysis}

/-- The warnings in the record of a node are those about the unterminated spans below the node's
own span, in preorder. So there are some just for a tainted node, and a definition with warnings
counts as undocumented. -/
theorem record_warnings (h : analyze gs options path source = .ok a) :
    a.warnings = (a.tree.preorder.filter (·.unterminated)).map (Warning.ofSpan source) ∧
    a.records false = a.outline.walk.map a.recordOf ∧
    ∀ o ∈ a.outline.walk, ∃ s ∈ a.tree.preorder, o = Outline.ofSpan gs o.name s ∧
      (a.recordOf o).warnings =
        (s.descendants.filter (·.unterminated)).map
          (fun d => (Warning.ofSpan source d).message) ∧
      ((a.recordOf o).warnings ≠ [] ↔ o.tainted = true) ∧
      ((a.recordOf o).kind.isDefinition = true → (a.recordOf o).warnings ≠ [] →
        (a.recordOf o).formattedMultiline = false ∧ (a.recordOf o).documented = false) := by
  have hspans := exists_span_of_mem_walk h
  obtain ⟨tree, htree, rfl⟩ := analyze_eq_ok_iff.mp h
  refine ⟨rfl, Analysis.records_eq_map_walk _, fun o ho => ?_⟩
  obtain ⟨s, hs, hreportable, ho⟩ := hspans o ho
  have hclosed := scan_reportable_closed htree hs hreportable
  have hwarnings : (Analysis.recordOf ⟨path, tree, Outline.ofSpan gs (baseName path) tree,
      warningsOf source tree⟩ o).warnings =
      (s.descendants.filter (·.unterminated)).map
        (fun d => (Warning.ofSpan source d).message) := by
    have hrange := scan_filter_range htree hs hclosed
    rw [ho]
    simp only [Analysis.recordOf, Record.ofNode, warningsOf, List.filter_map, List.map_map]
    exact congrArg _ hrange
  have htainted : (s.descendants.filter (·.unterminated)).map
      (fun d => (Warning.ofSpan source d).message) ≠ [] ↔ o.tainted = true := by
    rw [ho, Outline.tainted_iff hclosed, ne_eq, List.map_eq_nil_iff]
  rw [hwarnings]
  refine ⟨s, hs, ho, rfl, htainted, fun hdefinition hsome => ?_⟩
  have hflag := htainted.mp hsome
  show o.coverage.formatted = false ∧ o.coverage.complete = false
  change o.kind.isDefinition = true at hdefinition
  rw [ho] at hflag hdefinition ⊢
  exact Outline.coverage_of_tainted hdefinition hflag

/-- A function, and behind it a method with a string in brackets, neither of them closed. -/
def openEndedSource : Text := "def g():\n pass\nclass A:\n def f(s):\n  x = ('é\n"

/-- The method has both warnings and is tainted, the function has none and is not. -/
theorem record_warnings_open : ∃ a,
    analyze ⟨.standard, .standard, .standard⟩ {} "m.py" openEndedSource = .ok a ∧
      (∃ o ∈ a.outline.walk, o.kind = .function ∧ (a.recordOf o).warnings = [] ∧
        o.tainted = false) ∧
      ∃ o ∈ a.outline.walk, o.kind = .method ∧ (a.recordOf o).warnings =
          ["unterminated bracket at line 5", "unterminated single string at line 5"] ∧
        o.tainted = true ∧ (a.recordOf o).documented = false ∧
        ∃ s ∈ a.tree.preorder, s.kind = .method ∧
          (s.descendants.filter (·.unterminated)).map
            (fun d => (Warning.ofSpan openEndedSource d).message) = (a.recordOf o).warnings := by
  have htest : (analyze ⟨.standard, .standard, .standard⟩ {} "m.py" openEndedSource).toOption.any
      (fun a =>
        (a.outline.walk.any fun o => o.kind == .function && (a.recordOf o).warnings == []) &&
        a.outline.walk.any fun o => o.kind == .method && (a.recordOf o).warnings ==
          ["unterminated bracket at line 5", "unterminated single string at line 5"]) = true := by
    decide +kernel
  obtain ⟨a, ha, htest⟩ := analyze_ok_of_any htest
  simp only [Bool.and_eq_true, beq_iff_eq, List.any_eq_true] at htest
  obtain ⟨⟨g, hg, hfunction, hnone⟩, f, hf, hmethod, hboth⟩ := htest
  obtain ⟨-, -, hnodes⟩ := record_warnings ha
  obtain ⟨-, -, -, -, hclean, -⟩ := hnodes g hg
  obtain ⟨s, hs, hspan, htexts, htainted, hundocumented⟩ := hnodes f hf
  have hsome : (a.recordOf f).warnings ≠ [] := by rw [hboth]; simp
  have hdefinition : (a.recordOf f).kind.isDefinition = true := by
    show f.kind.isDefinition = true
    rw [hmethod]
    rfl
  have hkind : s.kind = .method := by
    rw [hspan] at hmethod
    exact hmethod
  exact ⟨a, ha, ⟨g, hg, hfunction, hnone, Bool.eq_false_iff.mpr fun h => hclean.mpr h hnone⟩,
    f, hf, hmethod, hboth, htainted.mp hsome, (hundocumented hdefinition hsome).2, s, hs, hkind,
    htexts.symm⟩

end

end DocCoverage
