import DocCoverage.Text.Basic
import Mathlib.Tactic.Common

/-!
# Dividing a text at a separator

The pieces of a text are the texts without the separator that give it back when the separator is
put behind each of them but the last.
-/
namespace DocCoverage.Text

variable {sep : Char} {t : Text}

theorem splitOn_eq_singleton (h : sep ∉ t) : splitOn sep t = [t] := by
  induction t with
  | nil => rfl
  | cons c t ih =>
    have hc : (c == sep) = false := by
      rw [beq_eq_false_iff_ne]
      rintro rfl
      exact h List.mem_cons_self
    rw [splitOn, ih fun hmem => h (List.mem_cons_of_mem c hmem)]
    simp [hc]

theorem splitOn_append (h : sep ∉ t) (u : Text) :
    splitOn sep (t ++ sep :: u) = t :: splitOn sep u := by
  have hne : ∀ v : Text, splitOn sep v ≠ [] := by
    intro v
    cases v with
    | nil => exact List.cons_ne_nil _ _
    | cons c v =>
      rw [splitOn]
      split
      · exact List.cons_ne_nil _ _
      · split <;> exact List.cons_ne_nil _ _
  induction t with
  | nil =>
    obtain ⟨p, ps, hps⟩ := List.exists_cons_of_ne_nil (hne u)
    rw [List.nil_append, splitOn, hps]
    simp
  | cons c t ih =>
    have hc : (c == sep) = false := by
      rw [beq_eq_false_iff_ne]
      rintro rfl
      exact h List.mem_cons_self
    rw [List.cons_append, splitOn, ih fun hmem => h (List.mem_cons_of_mem c hmem)]
    simp [hc]

/-- The texts with the separator behind each. -/
def ended (sep : Char) (pieces : List Text) : Text := pieces.flatMap (· ++ [sep])

@[simp] theorem ended_nil (sep : Char) : ended sep [] = [] := rfl

@[simp] theorem ended_cons (sep : Char) (p : Text) (ps : List Text) :
    ended sep (p :: ps) = p ++ sep :: ended sep ps := by
  rw [ended, List.flatMap_cons, List.append_assoc]
  rfl

theorem ended_append (sep : Char) (ps qs : List Text) :
    ended sep (ps ++ qs) = ended sep ps ++ ended sep qs := List.flatMap_append

theorem ended_flatten (sep : Char) (pss : List (List Text)) :
    ended sep pss.flatten = pss.flatMap (ended sep) := by
  induction pss with
  | nil => rfl
  | cons ps pss ih => rw [List.flatten_cons, ended_append, ih, List.flatMap_cons]

theorem splitOn_ended {pieces : List Text} {last : Text} (h : ∀ p ∈ pieces, sep ∉ p)
    (hlast : sep ∉ last) : splitOn sep (ended sep pieces ++ last) = pieces ++ [last] := by
  induction pieces with
  | nil => exact splitOn_eq_singleton hlast
  | cons p pieces ih =>
    rw [ended_cons, List.append_assoc, List.cons_append,
      splitOn_append (h p List.mem_cons_self),
      ih fun q hq => h q (List.mem_cons_of_mem p hq), List.cons_append]

theorem exists_ended (sep : Char) (t : Text) :
    ∃ pieces last, t = ended sep pieces ++ last ∧ (∀ p ∈ pieces, sep ∉ p) ∧ sep ∉ last := by
  induction t with
  | nil => exact ⟨[], [], rfl, by simp, by simp⟩
  | cons c t ih =>
    obtain ⟨pieces, last, rfl, hpieces, hlast⟩ := ih
    by_cases hc : sep = c
    · subst hc
      exact ⟨[] :: pieces, last, by simp, by simpa using hpieces, hlast⟩
    · cases pieces with
      | nil => exact ⟨[], c :: last, rfl, hpieces, by simp [hc, hlast]⟩
      | cons p pieces =>
        refine ⟨(c :: p) :: pieces, last, by simp, ?_, hlast⟩
        intro q hq
        rcases List.mem_cons.mp hq with rfl | hq
        · simp [hc, hpieces p List.mem_cons_self]
        · exact hpieces q (List.mem_cons_of_mem p hq)

theorem splitOn_eq_iff {pieces : List Text} {last : Text} :
    splitOn sep t = pieces ++ [last] ↔
      t = ended sep pieces ++ last ∧ (∀ p ∈ pieces, sep ∉ p) ∧ sep ∉ last := by
  constructor
  · intro h
    obtain ⟨pieces', last', rfl, hpieces, hlast⟩ := exists_ended sep t
    rw [splitOn_ended hpieces hlast] at h
    obtain ⟨rfl, hl⟩ := List.append_inj' h rfl
    obtain rfl := List.singleton_inj.mp hl
    exact ⟨rfl, hpieces, hlast⟩
  · intro h
    obtain ⟨rfl, hpieces, hlast⟩ := h
    exact splitOn_ended hpieces hlast

theorem splitOn_injective (sep : Char) : Function.Injective (splitOn sep) := by
  intro t u h
  obtain ⟨pieces, last, rfl, hpieces, hlast⟩ := exists_ended sep t
  rw [splitOn_ended hpieces hlast] at h
  exact (splitOn_eq_iff.mp h.symm).1.symm

/-- A text with the separator in it is divided on both sides of it. -/
theorem splitOn_append_cons (sep : Char) (t u : Text) :
    splitOn sep (t ++ sep :: u) = splitOn sep t ++ splitOn sep u := by
  obtain ⟨ps, p, rfl, hps, hp⟩ := exists_ended sep t
  obtain ⟨qs, q, rfl, hqs, hq⟩ := exists_ended sep u
  have hall : ended sep ps ++ p ++ sep :: (ended sep qs ++ q) = ended sep (ps ++ p :: qs) ++ q := by
    simp [ended_append]
  rw [hall, splitOn_ended (fun r hr => ?_) hq, splitOn_ended hps hp, splitOn_ended hqs hq]
  · simp
  · rcases List.mem_append.mp hr with hr | hr
    · exact hps r hr
    · rcases List.mem_cons.mp hr with rfl | hr
      · exact hp
      · exact hqs r hr

theorem not_mem_of_mem_splitOn {piece : Text} (h : piece ∈ splitOn sep t) : sep ∉ piece := by
  obtain ⟨pieces, last, rfl, hpieces, hlast⟩ := exists_ended sep t
  rw [splitOn_ended hpieces hlast] at h
  rcases List.mem_append.mp h with h | h
  · exact hpieces piece h
  · obtain rfl := List.mem_singleton.mp h
    exact hlast

/-- The piece behind the last separator is not empty unless the text ends there. -/
theorem exists_last_piece (hne : t ≠ []) (hlast : t.getLast? ≠ some sep) :
    ∃ piece ∈ splitOn sep t, piece ≠ [] := by
  obtain ⟨pieces, last, rfl, hpieces, hsep⟩ := exists_ended sep t
  rw [splitOn_ended hpieces hsep]
  refine ⟨last, List.mem_append_right _ (List.mem_singleton_self _), ?_⟩
  rintro rfl
  rw [List.append_nil] at hne hlast
  rcases List.eq_nil_or_concat pieces with rfl | ⟨front, piece, rfl⟩
  · exact hne rfl
  · simp [ended_append] at hlast

end DocCoverage.Text
