import DocCoverage.Span.Basic

/-!
# Visiting spans one at a time

A traversal hands out the spans below a span one after the other. What it still has to do is kept
on a stack, the next span at its end: a span that was handed out is replaced by its children, which
are stacked in reverse so that the first of them comes next.
-/
namespace DocCoverage.Span

theorem forest_append (spans spans' : List Span) :
    forest (spans ++ spans') = forest spans ++ forest spans' := by
  induction spans with
  | nil => rfl
  | cons s spans ih => simp only [List.cons_append, forest, ih, List.append_assoc]

/-- A traversal under way, with the spans whose turn is still to come. -/
structure Traversal where
  stack : Array Span

namespace Traversal

/-- The traversal of everything below a span. -/
def below (s : Span) : Traversal := ⟨s.children.reverse.toArray⟩

/-- The next span and the traversal after it. -/
def next? (v : Traversal) : Option (Span × Traversal) :=
  match v.stack.back? with
  | none => none
  | some s => some (s, ⟨v.stack.pop ++ s.children.reverse⟩)

/-- The spans that the stack stands for: each span on it with its descendants, the last first. -/
def left (v : Traversal) : List Span := forest v.stack.toList.reverse

theorem left_below (s : Span) : (below s).left = s.descendants := by
  cases s
  simp [below, left, descendants]

theorem left_of_next?_none {v : Traversal} (h : v.next? = none) : v.left = [] := by
  unfold next? at h
  split at h
  · rename_i hback
    rw [left, Array.back?_eq_none_iff.mp hback]
    rfl
  · cases h

/-- The next span is the first one left, and what is left after it is the rest. -/
theorem left_of_next?_some {v w : Traversal} {s : Span} (h : v.next? = some (s, w)) :
    v.left = s :: w.left := by
  unfold next? at h
  split at h
  · cases h
  · rename_i t hback
    obtain ⟨rfl, rfl⟩ := Prod.mk.inj (Option.some.inj h)
    obtain ⟨waiting, hstack⟩ := Array.back?_eq_some_iff.mp hback
    obtain ⟨kind, text, start, stop, indent, unterminated, children⟩ := t
    simp only [left, hstack, Array.pop_push, Array.toList_push, List.reverse_append,
      List.reverse_singleton, List.singleton_append, forest, descendants,
      Array.toList_appendList, List.reverse_reverse, forest_append]

def visit (v : Traversal) : List Span :=
  match _ : v.next? with
  | none => []
  | some (s, w) => s :: w.visit
termination_by v.left.length
decreasing_by
  rw [left_of_next?_some ‹v.next? = some (s, w)›, List.length_cons]
  omega

/-- A traversal hands out what is left, in order. -/
theorem visit_eq_left (v : Traversal) : v.visit = v.left := by
  fun_induction visit v with
  | case1 v h => exact (left_of_next?_none h).symm
  | case2 v s w h ih => rw [left_of_next?_some h, ih]

end Traversal

/-- The traversal of a span hands out its descendants. -/
theorem visit_below (s : Span) : (Traversal.below s).visit = s.descendants := by
  rw [Traversal.visit_eq_left, Traversal.left_below]

end DocCoverage.Span
