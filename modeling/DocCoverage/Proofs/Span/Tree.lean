import DocCoverage.Span.Basic
import Mathlib.Tactic.Common

/-!
# Span trees

Induction over a span tree goes from the children to the span. The preorder listing of a span has
the span itself and the preorder listings of its children.
-/
namespace DocCoverage.Span

theorem sizeOf_child_lt {c s : Span} (h : c ∈ s.children) : sizeOf c < sizeOf s := by
  obtain ⟨kind, text, start, stop, indent, unterminated, children⟩ := s
  have : sizeOf c < sizeOf children := List.sizeOf_lt_of_mem h
  simp only [mk.sizeOf_spec]
  omega

theorem tree_induction {motive : Span → Prop}
    (node : ∀ s, (∀ c ∈ s.children, motive c) → motive s) (s : Span) : motive s :=
  node s fun c _ => tree_induction node c
termination_by sizeOf s
decreasing_by exact sizeOf_child_lt ‹_›

theorem descendants_eq (s : Span) : s.descendants = forest s.children := by
  cases s
  rw [descendants]

theorem forest_eq_flatMap (spans : List Span) : forest spans = spans.flatMap preorder := by
  induction spans with
  | nil => rfl
  | cons c spans ih => rw [forest, ih, List.flatMap_cons, preorder, List.cons_append]

theorem mem_forest {s : Span} {spans : List Span} :
    s ∈ forest spans ↔ ∃ c ∈ spans, s ∈ c.preorder := by
  induction spans with
  | nil => simp [forest]
  | cons c spans ih => simp [forest, ih, preorder, or_assoc]

theorem mem_descendants {d s : Span} : d ∈ s.descendants ↔ ∃ c ∈ s.children, d ∈ c.preorder := by
  rw [descendants_eq, mem_forest]

theorem mem_preorder {d s : Span} : d ∈ s.preorder ↔ d = s ∨ ∃ c ∈ s.children, d ∈ c.preorder := by
  rw [preorder, List.mem_cons, mem_descendants]

theorem self_mem_preorder (s : Span) : s ∈ s.preorder := List.mem_cons_self

theorem child_mem_preorder {c s : Span} (h : c ∈ s.children) : c ∈ s.preorder :=
  mem_preorder.mpr (Or.inr ⟨c, h, c.self_mem_preorder⟩)

theorem preorder_trans {d s tree : Span} (hd : d ∈ s.preorder) (hs : s ∈ tree.preorder) :
    d ∈ tree.preorder := by
  induction tree using tree_induction with
  | node tree ih =>
    rcases mem_preorder.mp hs with rfl | ⟨c, hc, hs⟩
    · exact hd
    · exact mem_preorder.mpr (Or.inr ⟨c, hc, ih c hc hs⟩)

theorem descendants_trans {d s tree : Span} (hd : d ∈ s.descendants) (hs : s ∈ tree.descendants) :
    d ∈ tree.descendants := by
  obtain ⟨c, hc, hs⟩ := mem_descendants.mp hs
  exact mem_descendants.mpr ⟨c, hc, preorder_trans (List.mem_cons_of_mem s hd) hs⟩

/-- What holds of a span whenever it holds of everything below it holds of every span. -/
theorem descent_induction {motive : Span → Prop}
    (node : ∀ s, (∀ d ∈ s.descendants, motive d) → motive s) (s : Span) : motive s := by
  have hall : ∀ d ∈ s.preorder, motive d := by
    induction s using tree_induction with
    | node s ih =>
      have hbelow : ∀ d ∈ s.descendants, motive d := by
        intro d hd
        obtain ⟨c, hc, hd⟩ := mem_descendants.mp hd
        exact ih c hc d hd
      intro d hd
      rcases List.mem_cons.mp hd with rfl | hd
      · exact node d hbelow
      · exact hbelow d hd
  exact hall s s.self_mem_preorder

theorem exists_parent {d s : Span} (h : d ∈ s.descendants) : ∃ q ∈ s.preorder, d ∈ q.children := by
  induction s using tree_induction with
  | node s ih =>
    obtain ⟨c, hc, hd⟩ := mem_descendants.mp h
    rcases List.mem_cons.mp hd with rfl | hd
    · exact ⟨s, s.self_mem_preorder, hc⟩
    · obtain ⟨q, hq, hdq⟩ := ih c hc hd
      exact ⟨q, preorder_trans hq (child_mem_preorder hc), hdq⟩

end DocCoverage.Span
