import DocCoverage.Record
import DocCoverage.Proofs.Scan.Partition
import DocCoverage.Proofs.Span.Move

/-!
# The nodes of an outline and their records

The outline of a file has a root for the file, and every node below it is itself the outline of a
definition somewhere in the tree of spans. So what is known of the outline of any span is known of
every node. Without collapsing, the records are those of the nodes, the file's first and each before
those of the definitions nested in it.
-/
namespace DocCoverage

namespace Outline

variable {gs : GrammarSet} {name : Text} {s : Span} {o d : Outline}

/-- Every node below this one, each before its own children. -/
def descendants (o : Outline) : List Outline := walkAll o.children

theorem walk_eq (o : Outline) : o.walk = o :: o.descendants := by
  cases o
  rw [walk]
  rfl

theorem walkAll_eq_flatMap (os : List Outline) : walkAll os = os.flatMap walk := by
  induction os with
  | nil => rfl
  | cons o os ih => rw [walkAll, ih, List.flatMap_cons]

theorem descendants_eq_flatMap (o : Outline) : o.descendants = o.children.flatMap walk := by
  rw [descendants, walkAll_eq_flatMap]

theorem walk_eq_flatMap (o : Outline) : o.walk = o :: o.children.flatMap walk := by
  rw [walk_eq, descendants_eq_flatMap]

theorem mem_walk : d ∈ o.walk ↔ d = o ∨ d ∈ o.descendants := by
  rw [walk_eq, List.mem_cons]

theorem self_mem_walk (o : Outline) : o ∈ o.walk := mem_walk.mpr (Or.inl rfl)

theorem mem_descendants : d ∈ o.descendants ↔ ∃ c ∈ o.children, d = c ∨ d ∈ c.descendants := by
  simp only [descendants_eq_flatMap o, List.mem_flatMap, mem_walk]

theorem child_mem_descendants (h : d ∈ o.children) : d ∈ o.descendants :=
  mem_descendants.mpr ⟨d, h, Or.inl rfl⟩

theorem descendants_eq_nil_iff : o.descendants = [] ↔ o.children = [] := by
  rw [descendants_eq_flatMap, List.flatMap_eq_nil_iff, List.eq_nil_iff_forall_not_mem]
  refine forall₂_congr fun c _ => ?_
  rw [walk_eq]
  simp

theorem sizeOf_child_lt (h : d ∈ o.children) : sizeOf d < sizeOf o := by
  obtain ⟨kind, name, start, stop, signature, findings, coverage, tainted, children⟩ := o
  have : sizeOf d < sizeOf children := List.sizeOf_lt_of_mem h
  simp only [mk.sizeOf_spec]
  omega

theorem tree_induction {motive : Outline → Prop}
    (node : ∀ o, (∀ c ∈ o.children, motive c) → motive o) (o : Outline) : motive o :=
  node o fun c _ => tree_induction node c
termination_by sizeOf o
decreasing_by exact sizeOf_child_lt ‹_›

theorem nestedIn_eq_flatMap (gs : GrammarSet) (spans : List Span) :
    nestedIn gs spans = spans.flatMap fun c =>
      if c.kind.isDefinition then [ofSpan gs c.name c] else nested gs c := by
  induction spans with
  | nil => rfl
  | cons c spans ih => rw [nestedIn, ih, List.flatMap_cons, ofSpan]

/-- A node nested in a span is the outline of a definition below the span. -/
theorem exists_definition_of_mem_nested (h : o ∈ nested gs s) :
    ∃ t ∈ s.descendants, t.kind.isDefinition = true ∧ o = ofSpan gs t.name t := by
  induction s using Span.tree_induction with
  | node s ih =>
    rw [nested_eq, nestedIn_eq_flatMap] at h
    obtain ⟨c, hc, ho⟩ := List.mem_flatMap.mp h
    split at ho
    · rename_i hdefinition
      exact ⟨c, Span.mem_descendants.mpr ⟨c, hc, c.self_mem_preorder⟩, hdefinition,
        List.mem_singleton.mp ho⟩
    · obtain ⟨t, ht, hdefinition, heq⟩ := ih c hc ho
      exact ⟨t, Span.mem_descendants.mpr ⟨c, hc, List.mem_cons_of_mem c ht⟩, hdefinition, heq⟩

theorem nested_eq_nil (h : ∀ d ∈ s.descendants, d.kind.isDefinition = false) :
    nested gs s = [] := by
  refine List.eq_nil_iff_forall_not_mem.mpr fun o ho => ?_
  obtain ⟨t, ht, hdefinition, -⟩ := exists_definition_of_mem_nested ho
  rw [h t ht] at hdefinition
  cases hdefinition

/-- Every node below the outline of a span is the outline of a definition. -/
theorem exists_definition_of_mem_descendants (h : o ∈ (ofSpan gs name s).descendants) :
    ∃ t ∈ s.descendants, t.kind.isDefinition = true ∧ o = ofSpan gs t.name t := by
  revert name
  induction s using Span.descent_induction with
  | node s ih =>
    intro name h
    obtain ⟨c, hc, hoc⟩ := mem_descendants.mp h
    obtain ⟨t, ht, hdefinition, rfl⟩ := exists_definition_of_mem_nested hc
    rcases hoc with rfl | hoc
    · exact ⟨t, ht, hdefinition, rfl⟩
    · obtain ⟨u, hu, hrest⟩ := ih t ht hoc
      exact ⟨u, Span.descendants_trans hu ht, hrest⟩

end Outline

namespace Record

theorem reportedAll_eq_flatMap (collapse : Bool) (os : List Outline) :
    reportedAll collapse os = os.flatMap (reported collapse) := by
  induction os with
  | nil => rfl
  | cons o os ih => rw [reportedAll, ih, List.flatMap_cons]

theorem reported_eq (collapse : Bool) (o : Outline) :
    reported collapse o = o :: if collapse && o.coverage.complete then []
      else o.children.flatMap (reported collapse) := by
  cases o
  rw [reported, reportedAll_eq_flatMap]

theorem reported_eq_walk (o : Outline) : reported false o = o.walk := by
  induction o using Outline.tree_induction with
  | node o ih =>
    rw [reported_eq, Outline.walk_eq_flatMap, List.flatMap_congr ih]
    rfl

theorem reported_subset (collapse : Bool) (o : Outline) :
    ∀ d ∈ reported collapse o, d ∈ o.walk := by
  induction o using Outline.tree_induction with
  | node o ih =>
    intro d hd
    rw [reported_eq, List.mem_cons] at hd
    rw [Outline.mem_walk, Outline.descendants_eq_flatMap]
    refine hd.imp_right fun hd => ?_
    split at hd
    · cases hd
    · obtain ⟨c, hc, hd⟩ := List.mem_flatMap.mp hd
      exact List.mem_flatMap.mpr ⟨c, hc, ih c hc d hd⟩

end Record

namespace Analysis

/-- The record of a node. -/
def recordOf (a : Analysis) (o : Outline) : Record := Record.ofNode a.path a.tree.text a.warnings o

/-- Without collapsing every node has its record. -/
theorem records_eq_map_walk (a : Analysis) :
    a.records false = a.outline.walk.map a.recordOf := by
  rw [records, Record.reported_eq_walk]
  rfl

theorem records_eq (a : Analysis) :
    a.records false = a.recordOf a.outline :: a.outline.descendants.map a.recordOf := by
  rw [records_eq_map_walk, Outline.walk_eq, List.map_cons]

end Analysis

section

variable {gs : GrammarSet} {options : ScanOptions} {path source : Text} {a : Analysis}

/-- A successful analysis is that of a scanned tree. -/
theorem analyze_eq_ok_iff : analyze gs options path source = .ok a ↔
    ∃ tree, scan options source = .ok tree ∧
      a = ⟨path, tree, Outline.ofSpan gs (baseName path) tree, warningsOf source tree⟩ := by
  unfold analyze
  cases scan options source with
  | error e => simp
  | ok tree => simp [eq_comm]

theorem analyze_untimed (h : analyze gs options path source = .ok a) :
    analyze gs options.untimed path source = .ok a := by
  obtain ⟨tree, hscan, rfl⟩ := analyze_eq_ok_iff.mp h
  exact analyze_eq_ok_iff.mpr ⟨tree, RuleTable.scan_untimed hscan, rfl⟩

/-- The outline of an analysis is that of its tree, whose root is the file. -/
theorem analyze_outline (h : analyze gs options path source = .ok a) :
    a.outline = Outline.ofSpan gs (baseName path) a.tree ∧ a.tree.kind = .file := by
  obtain ⟨tree, hscan, rfl⟩ := analyze_eq_ok_iff.mp h
  exact ⟨rfl, (file_stop hscan).1⟩

end

end DocCoverage
