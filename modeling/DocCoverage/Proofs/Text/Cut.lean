import DocCoverage.Text.Basic
import Mathlib.Tactic.Common

/-!
# Cuts of a text

A byte offset cuts a text exactly when some characters in front of it add up to that many bytes.
Every character has at least one byte, so the two sides of a cut are determined by the offset, and
a slice is the middle part of a text that is cut twice.
-/
namespace DocCoverage.Text

@[simp] theorem byteLength_nil : byteLength [] = 0 := rfl

@[simp] theorem byteLength_cons (c : Char) (t : Text) :
    byteLength (c :: t) = c.utf8Size + byteLength t := rfl

@[simp] theorem byteLength_append (a b : Text) :
    byteLength (a ++ b) = byteLength a + byteLength b := by
  induction a with
  | nil => simp
  | cons c a ih => simp [ih, Nat.add_assoc]

@[simp] theorem byteLength_reverse (t : Text) : byteLength t.reverse = byteLength t := by
  induction t with
  | nil => rfl
  | cons c t ih => simp [ih, Nat.add_comm]

theorem byteLength_eq_zero {t : Text} : byteLength t = 0 ↔ t = [] := by
  cases t with
  | nil => simp
  | cons c t =>
    have := c.utf8Size_pos
    simp
    omega

theorem byteLength_pos {t : Text} (h : t ≠ []) : 0 < byteLength t :=
  Nat.pos_of_ne_zero fun h0 => h (byteLength_eq_zero.mp h0)

theorem byteLength_spaces {u : Text} (h : ∀ c ∈ u, c = ' ') : byteLength u = u.length := by
  induction u with
  | nil => rfl
  | cons c u ih =>
    obtain rfl : c = ' ' := h c List.mem_cons_self
    rw [byteLength_cons, ih fun d hd => h d (List.mem_cons_of_mem _ hd), List.length_cons,
      show (' ' : Char).utf8Size = 1 from rfl]
    omega

/-- A cut after `n` bytes is a division of the text whose front has `n` bytes. -/
theorem splitAt?_eq_some_iff {n : Nat} {t a b : Text} :
    splitAt? n t = some (a, b) ↔ t = a ++ b ∧ byteLength a = n := by
  induction t generalizing n a with
  | nil =>
    cases n with
    | zero =>
      simp only [splitAt?, Option.some.injEq, Prod.mk.injEq, byteLength_eq_zero, List.nil_eq,
        List.append_eq_nil_iff]
      constructor
      · rintro ⟨rfl, rfl⟩
        simp
      · rintro ⟨⟨rfl, rfl⟩, -⟩
        simp
    | succ n =>
      simp only [splitAt?, List.nil_eq, List.append_eq_nil_iff, reduceCtorEq, false_iff]
      rintro ⟨⟨rfl, -⟩, h⟩
      simp at h
  | cons c t ih =>
    have hc := c.utf8Size_pos
    cases n with
    | zero =>
      simp only [splitAt?, Option.some.injEq, Prod.mk.injEq, byteLength_eq_zero]
      constructor
      · rintro ⟨rfl, rfl⟩
        simp
      · rintro ⟨h, rfl⟩
        simpa using h
    | succ n =>
      rw [splitAt?]
      constructor
      · intro h
        split at h
        · simp only [Option.map_eq_some_iff, Prod.exists, Prod.mk.injEq] at h
          obtain ⟨a', b', h, rfl, rfl⟩ := h
          obtain ⟨rfl, hlen⟩ := ih.mp h
          refine ⟨rfl, ?_⟩
          simp
          omega
        · cases h
      · rintro ⟨h, hlen⟩
        cases a with
        | nil => simp at hlen
        | cons d a =>
          simp only [List.cons_append, List.cons.injEq] at h
          obtain ⟨rfl, rfl⟩ := h
          simp only [byteLength_cons] at hlen
          rw [if_pos (by omega), ih.mpr ⟨rfl, by omega⟩]
          rfl

theorem splitAt?_append {a b : Text} {n : Nat} (h : byteLength a = n) :
    splitAt? n (a ++ b) = some (a, b) :=
  splitAt?_eq_some_iff.mpr ⟨rfl, h⟩

theorem append_inj_of_byteLength {a b a' b' : Text} (h : a ++ b = a' ++ b')
    (hl : byteLength a = byteLength a') : a = a' ∧ b = b' := by
  have h1 := splitAt?_append (b := b) hl
  rw [h, splitAt?_append rfl] at h1
  simpa [eq_comm] using h1

/-- Of two fronts of one text the shorter is a front of the longer. -/
theorem append_split_of_le {a b a' b' : Text} (h : a ++ b = a' ++ b')
    (hl : byteLength a ≤ byteLength a') : ∃ m, a' = a ++ m ∧ b = m ++ b' := by
  rcases List.append_eq_append_iff.mp h with ⟨m, rfl, rfl⟩ | ⟨m, rfl, rfl⟩
  · exact ⟨m, rfl, rfl⟩
  · have hm : m = [] := byteLength_eq_zero.mp (by simp at hl; omega)
    subst hm
    exact ⟨[], by simp, by simp⟩

theorem slice?_eq_some_iff {t m : Text} {i j : Nat} :
    slice? t i j = some m ↔
      ∃ a b, t = a ++ (m ++ b) ∧ byteLength a = i ∧ i + byteLength m = j := by
  unfold slice?
  constructor
  · intro h
    by_cases hij : j < i
    · simp [hij] at h
    · simp only [hij, ↓reduceIte, Option.bind_eq_bind, Option.bind_eq_some_iff,
        Prod.exists, Option.some.injEq] at h
      obtain ⟨a, rest, hs, m', b, hm, rfl⟩ := h
      obtain ⟨rfl, ha⟩ := splitAt?_eq_some_iff.mp hs
      obtain ⟨rfl, hb⟩ := splitAt?_eq_some_iff.mp hm
      exact ⟨a, b, rfl, ha, by omega⟩
  · rintro ⟨a, b, rfl, ha, hj⟩
    have hij : ¬ j < i := by omega
    simp only [hij, ↓reduceIte, Option.bind_eq_bind]
    rw [splitAt?_append ha, Option.bind_some, splitAt?_append (by omega)]
    rfl

theorem slice?_inner {t m m' : Text} {i j i' j' : Nat} (h : slice? t i j = some m)
    (h' : slice? t i' j' = some m') (hi : i ≤ i') (hj : j' ≤ j) :
    slice? m (i' - i) (j' - i) = some m' := by
  obtain ⟨a, b, rfl, ha, hm⟩ := slice?_eq_some_iff.mp h
  obtain ⟨a', b', ht, ha', hm'⟩ := slice?_eq_some_iff.mp h'
  obtain ⟨g, rfl, hg⟩ := append_split_of_le ht (by omega)
  have hg' : (g ++ m') ++ b' = m ++ b := by rw [List.append_assoc]; exact hg.symm
  rw [byteLength_append] at ha'
  obtain ⟨e, rfl, -⟩ := append_split_of_le hg' (by rw [byteLength_append]; omega)
  exact slice?_eq_some_iff.mpr ⟨g, e, List.append_assoc g m' e, by omega, by omega⟩

/-- A slice in the front of a text does not depend on the rest. -/
theorem slice?_of_le {x : Text} (y : Text) {i j : Nat} (hj : j ≤ byteLength x) :
    slice? (x ++ y) i j = slice? x i j := by
  ext m
  simp only [slice?_eq_some_iff]
  constructor
  · rintro ⟨a, b, hab, ha, hm⟩
    have hab : (a ++ m) ++ b = x ++ y := by rw [List.append_assoc, hab]
    obtain ⟨g, rfl, -⟩ := append_split_of_le hab (by simp; omega)
    exact ⟨a, g, List.append_assoc _ _ _, ha, hm⟩
  · rintro ⟨a, b, rfl, ha, hm⟩
    exact ⟨a, b ++ y, by simp, ha, hm⟩

/-- A slice behind the front of a text is a slice of the rest. -/
theorem slice?_behind (x y : Text) (i j : Nat) :
    slice? (x ++ y) (byteLength x + i) (byteLength x + j) = slice? y i j := by
  ext m
  simp only [slice?_eq_some_iff]
  constructor
  · rintro ⟨a, b, hab, ha, hm⟩
    obtain ⟨g, rfl, rfl⟩ := append_split_of_le hab (by omega)
    rw [byteLength_append] at ha
    exact ⟨g, b, rfl, by omega, by omega⟩
  · rintro ⟨a, b, rfl, ha, hm⟩
    exact ⟨x ++ a, b, by simp, by simp [ha], by omega⟩

/-- Dropping a beginning is a division of the text behind it. -/
theorem dropPrefix?_eq_some_iff {w t rest : Text} :
    dropPrefix? w t = some rest ↔ t = w ++ rest := by
  induction w generalizing t with
  | nil => simp [dropPrefix?, eq_comm]
  | cons c w ih =>
    cases t with
    | nil => simp [dropPrefix?]
    | cons d t =>
      rw [dropPrefix?]
      by_cases hcd : c = d
      · simp [hcd, ih]
      · simp [hcd, Ne.symm hcd]

theorem startsWith_iff {t w : Text} : startsWith t w = true ↔ ∃ rest, t = w ++ rest := by
  simp only [startsWith, Option.isSome_iff_exists, dropPrefix?_eq_some_iff]

/-- A slice from the front is cut off there. -/
theorem slice_front {a b : Text} {n : Nat} (h : byteLength a = n) : slice (a ++ b) 0 n = a := by
  have hs : slice? (a ++ b) 0 n = some a := slice?_eq_some_iff.mpr ⟨[], b, rfl, rfl, by omega⟩
  simp [slice, hs]

end DocCoverage.Text
