import DocCoverage.Text.Order
import Mathlib.Data.Char

/-!
# Sets of texts in order

A set of texts is written as a strictly increasing list, so each set has one such list. Sorting a
list gives the list of its members.
-/
namespace DocCoverage.Text

theorem lt_trans {s t u : Text} (hst : lt s t = true) (htu : lt t u = true) : lt s u = true := by
  induction s generalizing t u with
  | nil =>
    cases u with
    | nil => cases t <;> cases htu
    | cons e u => rfl
  | cons c s ih =>
    cases t with
    | nil => cases hst
    | cons d t =>
      cases u with
      | nil => cases htu
      | cons e u =>
        simp only [lt, Bool.or_eq_true, decide_eq_true_eq, Bool.and_eq_true, beq_iff_eq] at *
        rcases hst with hcd | ⟨rfl, hst⟩
        · rcases htu with hde | ⟨rfl, -⟩
          · exact Or.inl (Char.lt_trans hcd hde)
          · exact Or.inl hcd
        · rcases htu with hde | ⟨rfl, htu⟩
          · exact Or.inl hde
          · exact Or.inr ⟨rfl, ih hst htu⟩

theorem lt_total {s t : Text} (h : lt s t = false) (hne : s ≠ t) : lt t s = true := by
  induction s generalizing t with
  | nil =>
    cases t with
    | nil => exact absurd rfl hne
    | cons d t => cases h
  | cons c s ih =>
    cases t with
    | nil => rfl
    | cons d t =>
      simp only [lt, Bool.or_eq_false_iff, decide_eq_false_iff_not, Bool.and_eq_false_iff,
        beq_eq_false_iff_ne, not_lt] at h
      simp only [lt, Bool.or_eq_true, decide_eq_true_eq, Bool.and_eq_true, beq_iff_eq]
      rcases lt_or_eq_of_le h.1 with hlt | rfl
      · exact Or.inl hlt
      · refine Or.inr ⟨rfl, ih (h.2.resolve_left fun hc => hc rfl) ?_⟩
        rintro rfl
        exact hne rfl

/-- The list holds the texts of a set, in increasing order and without repetition. -/
structure Lists (ts : List Text) (p : Text → Prop) : Prop where
  increasing : ts.Pairwise fun s t => lt s t = true
  mem_iff : ∀ t, t ∈ ts ↔ p t

theorem mem_insert {s t : Text} {ts : List Text} : s ∈ insert t ts ↔ s = t ∨ s ∈ ts := by
  induction ts with
  | nil => simp [insert]
  | cons u us ih =>
    rw [insert]
    split
    · simp
    · split
      · rename_i h
        rw [eq_of_beq h]
        simp
      · rw [List.mem_cons, ih, List.mem_cons, or_left_comm]

theorem Lists.insert {ts : List Text} {p : Text → Prop} (h : Lists ts p) (t : Text) :
    Lists (insert t ts) fun s => s = t ∨ p s := by
  refine ⟨?_, fun s => by rw [mem_insert, h.mem_iff]⟩
  have hinc := h.increasing
  clear h
  induction ts with
  | nil => exact List.pairwise_singleton _ _
  | cons u us ih =>
    obtain ⟨hu, hus⟩ := List.pairwise_cons.mp hinc
    rw [Text.insert]
    split
    · rename_i htu
      refine List.pairwise_cons.mpr ⟨fun s hs => ?_, hinc⟩
      rcases List.mem_cons.mp hs with rfl | hs
      · exact htu
      · exact lt_trans htu (hu s hs)
    · rename_i htu
      split
      · exact hinc
      · rename_i hne
        refine List.pairwise_cons.mpr ⟨fun s hs => ?_, ih hus⟩
        rcases mem_insert.mp hs with rfl | hs
        · exact lt_total (Bool.eq_false_iff.mpr htu) (by simpa using hne)
        · exact hu s hs

theorem lists_foldl (ts us : List Text) {p : Text → Prop} (h : Lists us p) :
    Lists (ts.foldl (fun s t => Text.insert t s) us) fun s => s ∈ ts ∨ p s := by
  induction ts generalizing us p with
  | nil => simpa using h
  | cons t ts ih =>
    have hrest := ih _ (h.insert t)
    refine ⟨hrest.increasing, fun s => (hrest.mem_iff s).trans ?_⟩
    rw [List.mem_cons, or_left_comm, or_assoc]

theorem lists_sorted (ts : List Text) : Lists (sorted ts) (· ∈ ts) := by
  have h := lists_foldl ts [] (p := fun _ => False) ⟨List.Pairwise.nil, by simp⟩
  exact ⟨h.increasing, fun s => (h.mem_iff s).trans (by simp)⟩

theorem Lists.filter {ts : List Text} {p : Text → Prop} (h : Lists ts p) (q : Text → Bool) :
    Lists (ts.filter q) fun s => p s ∧ q s = true :=
  ⟨h.increasing.filter _, fun s => by rw [List.mem_filter, h.mem_iff]⟩

end DocCoverage.Text
