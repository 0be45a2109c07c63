import DocCoverage.Pattern.Parse

/-!
# Patterns without properties

A pattern that can be read without knowing any property names none, so every library reads it the
same way. If its parts weigh little enough, every library takes it.
-/
namespace DocCoverage.Pattern

def noProperties : Properties := fun _ => none

variable {f : Flags} {ps : Properties} {t : Text}

namespace Flags

theorem propertyClass?_noProperties (negated : Bool) :
    f.propertyClass? noProperties negated t = none := by
  unfold propertyClass? noProperties
  cases f.propertyName? t <;> rfl

theorem escape?_of_noProperties {p : Primitive × Text} (h : f.escape? noProperties t = some p) :
    f.escape? ps t = some p := by
  cases t with
  | nil => cases h
  | cons c t =>
    simp only [escape?] at h ⊢
    split at h
    case h_4 | h_5 =>
      rw [propertyClass?_noProperties] at h
      cases h
    all_goals simp_all

theorem classItem?_of_noProperties {p : Primitive × Text}
    (h : f.classItem? noProperties t = some p) : f.classItem? ps t = some p := by
  unfold classItem? at h ⊢
  split at h
  · cases h
  · exact escape?_of_noProperties h
  · simp_all

theorem classRange?_of_noProperties {s : CharSet × Text}
    (h : f.classRange? noProperties t = some s) : f.classRange? ps t = some s := by
  unfold classRange? at h ⊢
  obtain ⟨⟨first, rest⟩, hfirst, h⟩ := Option.bind_eq_some_iff.mp h
  rw [classItem?_of_noProperties hfirst]
  simp only [Option.bind_eq_bind, Option.bind_some] at h ⊢
  split at h
  · cases h
  · rename_i after hrest
    rw [hrest] at h ⊢
    split at h
    · rename_i hlast
      rw [if_pos hlast]
      exact h
    · rename_i hlast
      obtain ⟨⟨last, rest'⟩, hitem, h⟩ := Option.bind_eq_some_iff.mp h
      rw [if_neg hlast, classItem?_of_noProperties hitem]
      exact h
  · exact h

theorem classRest?_of_noProperties {n : Nat} {r : ClassReading} {s : NestedSet × Text}
    (h : f.classRest? noProperties n r t = some s) : f.classRest? ps n r t = some s := by
  fun_induction f.classRest? noProperties n r t generalizing s <;>
    grind [classRest?, classRange?_of_noProperties]

theorem bracket?_of_noProperties {s : NestedSet × Text} (h : f.bracket? noProperties t = some s) :
    f.bracket? ps t = some s :=
  classRest?_of_noProperties h

end Flags

theorem readAlternatives?_of_noProperties {n : Nat} {src : Source} {r : Reading}
    {x : Node × Source} (h : readAlternatives? noProperties n src r = some x) :
    readAlternatives? ps n src r = some x := by
  fun_induction readAlternatives? noProperties n src r generalizing x <;>
    grind [readAlternatives?, Flags.bracket?_of_noProperties, Flags.escape?_of_noProperties]

theorem read?_of_noProperties {node : Node} (h : read? noProperties t = some node) :
    read? ps t = some node := by
  unfold read? at h ⊢
  split at h
  · rename_i hread
    rw [readAlternatives?_of_noProperties hread]
    exact h
  · cases h

/-- Every library takes a pattern that names no properties and is light enough. -/
theorem exists_parse?_of_noProperties (lib : Library) (test : Expr → Bool)
    (h : (read? noProperties t).any (fun node =>
      node.depth ≤ nestLimit && node.expr.weight ≤ sizeLimit && test node.expr) = true) :
    ∃ e, parse? lib t = some e ∧ test e = true := by
  cases hread : read? noProperties t with
  | none => simp [hread] at h
  | some node =>
    simp only [hread, Option.any_some, Bool.and_eq_true, decide_eq_true_eq] at h
    obtain ⟨⟨hdepth, hweight⟩, htest⟩ := h
    have hsize := Nat.le_trans (lib.size_le node.expr) hweight
    exact ⟨node.expr, by simp [parse?, read?_of_noProperties hread, hdepth, hsize], htest⟩

theorem parse?_of_noProperties (lib : Library) {e : Expr}
    (h : (read? noProperties t).any (fun node =>
      node.depth ≤ nestLimit && node.expr.weight ≤ sizeLimit && node.expr == e) = true) :
    parse? lib t = some e := by
  obtain ⟨e', hparse, he⟩ := exists_parse?_of_noProperties lib (· == e) h
  rw [hparse, eq_of_beq he]

end DocCoverage.Pattern
