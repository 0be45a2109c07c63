import DocCoverage.Proofs.Grammar.Standard
import DocCoverage.Proofs.Outline.Walk
import DocCoverage.Proofs.Scan.Extents
import DocCoverage.Span.Traversal

/-!
# Definitions from the tree to the report

A file is gone through three times: a traversal hands out its spans from a stack, the outline looks
for definitions through all other spans, and the report goes down the outline. All three follow the
preorder of the tree, so the report has one record for each definition and in the order of the
source.
-/
namespace DocCoverage

namespace Span

/-- The file and its definitions, in the order in which a traversal hands them out. -/
def reportables (tree : Span) : List Span :=
  (tree :: (Traversal.below tree).visit).filter (·.kind.isReportable)

theorem visit_below_eq_flatMap (s : Span) :
    (Traversal.below s).visit = s.children.flatMap fun c => c :: (Traversal.below c).visit := by
  simp only [visit_below, descendants_eq s, forest_eq_flatMap]
  rfl

end Span

namespace Outline

variable {gs : GrammarSet} {name : Text}

/-- The nodes nested in a span and below are the outlines of its definitions, in preorder. -/
theorem walkAll_nested (gs : GrammarSet) (s : Span) :
    walkAll (nested gs s) =
      (s.descendants.filter (·.kind.isDefinition)).map fun d => ofSpan gs d.name d := by
  induction s using Span.tree_induction with
  | node s ih =>
    have hchild : ∀ c ∈ s.children,
        (if c.kind.isDefinition then [ofSpan gs c.name c] else nested gs c).flatMap walk =
          (c.preorder.filter (·.kind.isDefinition)).map fun d => ofSpan gs d.name d := by
      intro c hc
      rw [Span.preorder]
      split
      · rename_i hdefinition
        rw [List.flatMap_singleton, walk_eq, List.filter_cons, if_pos hdefinition, List.map_cons,
          ← ih c hc]
        rfl
      · rename_i hother
        rw [List.filter_cons, if_neg hother, ← ih c hc, walkAll_eq_flatMap]
    rw [nested_eq, nestedIn_eq_flatMap, walkAll_eq_flatMap, List.flatMap_assoc,
      List.flatMap_congr hchild, Span.descendants_eq, Span.forest_eq_flatMap, List.filter_flatMap,
      List.map_flatMap]

theorem walk_ofSpan (gs : GrammarSet) (name : Text) (s : Span) :
    (ofSpan gs name s).walk = ofSpan gs name s ::
      (s.descendants.filter (·.kind.isDefinition)).map fun d => ofSpan gs d.name d := by
  rw [walk_eq, ← walkAll_nested]
  rfl

end Outline

section

variable {gs : GrammarSet} {options : ScanOptions} {path source : Text} {tree : Span}
  {a : Analysis}

theorem scan_pairwise_start (h : scan options source = .ok tree) :
    tree.descendants.Pairwise fun q d => q.start < d.start :=
  Opening.Placed.pairwise_start_lt Rule.standard_regular (Rule.standard_regular.scan_placed h)

theorem scan_nodup (h : scan options source = .ok tree) : tree.preorder.Nodup := by
  refine List.nodup_cons.mpr ⟨fun hmem => scan_kind_ne_file h tree hmem (file_stop h).1, ?_⟩
  exact (scan_pairwise_start h).imp fun {q d} hlt heq => by
    rw [heq] at hlt
    exact Nat.lt_irrefl _ hlt

theorem scan_reportables (h : scan options source = .ok tree) :
    tree.reportables = tree :: tree.descendants.filter (·.kind.isDefinition) := by
  have hroot : tree.kind.isReportable = true := by rw [(file_stop h).1]; rfl
  rw [Span.reportables, Span.visit_below, List.filter_cons, if_pos hroot]
  refine congrArg _ (List.filter_congr fun d hd => ?_)
  simp [SpanKind.isReportable, scan_kind_ne_file h d hd]

/-- The nodes of an outline stand for the spans that get a record. -/
theorem scan_walk_places (h : scan options source = .ok tree) (gs : GrammarSet) (name : Text) :
    (Outline.ofSpan gs name tree).walk.map (fun o => (o.kind, o.start, o.stop)) =
      tree.reportables.map fun s => (s.kind, s.start, s.stop) := by
  rw [Outline.walk_ofSpan, scan_reportables h, List.map_cons, List.map_cons, List.map_map]
  rfl

theorem exists_span_of_mem_walk (h : analyze gs options path source = .ok a) :
    ∀ o ∈ a.outline.walk, ∃ s ∈ a.tree.preorder, s.kind.isReportable = true ∧
      o = Outline.ofSpan gs o.name s := by
  obtain ⟨tree, htree, rfl⟩ := analyze_eq_ok_iff.mp h
  intro o ho
  rw [Outline.walk_ofSpan, List.mem_cons] at ho
  rcases ho with rfl | ho
  · exact ⟨tree, tree.self_mem_preorder, by rw [(file_stop htree).1]; rfl, rfl⟩
  · obtain ⟨d, hd, rfl⟩ := List.mem_map.mp ho
    obtain ⟨hmem, hdefinition⟩ := List.mem_filter.mp hd
    exact ⟨d, List.mem_cons_of_mem tree hmem, by simp [SpanKind.isReportable, hdefinition], rfl⟩

theorem nodup_walk (h : analyze gs options path source = .ok a) : a.outline.walk.Nodup := by
  obtain ⟨tree, htree, rfl⟩ := analyze_eq_ok_iff.mp h
  rw [Outline.walk_ofSpan]
  refine List.nodup_cons.mpr ⟨fun hmem => ?_, ?_⟩
  · obtain ⟨d, hd, heq⟩ := List.mem_map.mp hmem
    have hkind : d.kind = tree.kind := congrArg Outline.kind heq
    exact scan_kind_ne_file htree d (List.mem_filter.mp hd).1 (hkind.trans (file_stop htree).1)
  · refine List.pairwise_map.mpr (((scan_pairwise_start htree).filter _).imp ?_)
    intro q d hlt heq
    have hstart : q.start = d.start := congrArg Outline.start heq
    omega

/-- A traversal hands out every span of the tree once, each before its own children. The nodes of
the outline and the records stand for those of them that are the file or a definition, in the same
order, and behind the record of the file their starts increase. -/
theorem scan_records_order (h : scan options source = .ok tree) :
    (∀ s, (Span.Traversal.below s).visit =
      s.children.flatMap fun c => c :: (Span.Traversal.below c).visit) ∧
    (tree :: (Span.Traversal.below tree).visit).Nodup ∧
    ∀ gs,
      (∀ name, (Outline.ofSpan gs name tree).walk.map (fun o => (o.kind, o.start, o.stop)) =
        tree.reportables.map fun s => (s.kind, s.start, s.stop)) ∧
      ∀ path, ∃ a file rest, analyze gs options path source = .ok a ∧ a.tree = tree ∧
        (a.records false).map (fun r => (r.kind, r.start, r.stop)) =
          tree.reportables.map (fun s => (s.kind, s.start, s.stop)) ∧
        a.records false = file :: rest ∧ file.kind = .file ∧
        rest.Pairwise fun r q => r.start < q.start := by
  have hnodup := scan_nodup h
  rw [Span.preorder, ← Span.visit_below] at hnodup
  refine ⟨Span.visit_below_eq_flatMap, hnodup, fun gs => ⟨scan_walk_places h gs, ?_⟩⟩
  intro path
  refine ⟨_, _, _, analyze_eq_ok_iff.mpr ⟨tree, h, rfl⟩, rfl, ?_, Analysis.records_eq _,
    (file_stop h).1, ?_⟩
  · rw [← scan_walk_places h gs (baseName path), Outline.walk_eq, Analysis.records_eq]
    simp only [List.map_cons, List.map_map]
    rfl
  · show ((Outline.walkAll (Outline.nested gs tree)).map _).Pairwise _
    rw [Outline.walkAll_nested, List.map_map, List.pairwise_map]
    exact (scan_pairwise_start h).filter _

/-- A function inside a classmethod, which stands below its decorator. -/
def buriedSource : Text := "class A:\n @classmethod\n def f(c):\n  def g():\n   pass\n"

/-- The decorator has no record of its own and hides none. -/
theorem scan_records_order_buried : ∃ tree a, scan {} buriedSource = .ok tree ∧
    (∃ d ∈ tree.preorder, d.kind = .decorator ∧ ∃ c ∈ d.children, c.kind = .classMethod) ∧
    analyze ⟨.standard, .standard, .standard⟩ {} "m.py" buriedSource = .ok a ∧
    (a.records false).map (fun r => (r.kind, r.start, r.stop)) =
      [(.file, 0, 53), (.classDef, 0, 53), (.classMethod, 24, 53), (.function, 36, 53)] := by
  have htest : (scan {} buriedSource).toOption.any (fun tree =>
      (tree :: tree.descendants.filter (·.kind.isDefinition)).map
        (fun s => (s.kind, s.start, s.stop)) ==
        [(.file, 0, 53), (.classDef, 0, 53), (.classMethod, 24, 53), (.function, 36, 53)] &&
      tree.preorder.any fun d => d.kind == .decorator && d.children.any (·.kind == .classMethod)) =
        true := by decide +kernel
  obtain ⟨tree, htree, htest⟩ := scan_ok_of_any htest
  simp only [Bool.and_eq_true, beq_iff_eq, List.any_eq_true] at htest
  obtain ⟨hplaces, d, hd, hkind, c, hc, hmethod⟩ := htest
  obtain ⟨-, -, hrecords⟩ := scan_records_order htree
  obtain ⟨a, -, -, ha, -, hmap, -⟩ := (hrecords ⟨.standard, .standard, .standard⟩).2 "m.py"
  rw [scan_reportables htree, hplaces] at hmap
  exact ⟨tree, a, htree, ⟨d, hd, hkind, c, hc, hmethod⟩, ha, hmap⟩

end

end DocCoverage
