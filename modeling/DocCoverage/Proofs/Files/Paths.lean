import DocCoverage.Discovery
import DocCoverage.Proofs.Text.Maps
import Mathlib.Data.List.Lex

/-!
# Paths in order

Paths are ordered by their components, in lexicographic order. Inserting keeps a list of paths
strictly increasing, so that the files a command finds are distinct.
-/
namespace DocCoverage

namespace Component

variable {a b c : Component}

theorem lt_irrefl (a : Component) : ¬lt a a = true := by
  cases a with
  | name t => simp [lt, Text.lt_irrefl]
  | _ => decide

theorem lt_trans (hab : lt a b = true) (hbc : lt b c = true) : lt a c = true := by
  cases a with
  | name s =>
    cases b with
    | name t =>
      cases c with
      | name u => exact Text.lt_trans hab hbc
      | _ => cases hbc
    | _ => cases hab
  | _ => cases b <;> cases c <;> simp_all [lt, rank]

theorem lt_total (hab : ¬lt a b = true) (hba : ¬lt b a = true) : a = b := by
  cases a with
  | name s =>
    cases b with
    | name t =>
      by_contra hne
      have hne' : s ≠ t := fun h => hne (by rw [h])
      exact hba (Text.lt_total (Bool.eq_false_iff.mpr hab) hne')
    | _ => exact absurd rfl hba
  | _ => cases b <;> first | rfl | exact absurd rfl hab | exact absurd rfl hba

end Component

namespace Path

variable {p q r : Text}

theorem ltComponents_eq_lex (as bs : List Component) :
    ltComponents as bs = List.lex as bs Component.lt := by
  induction as generalizing bs with
  | nil => cases bs <;> rfl
  | cons a as ih =>
    cases bs with
    | nil => rfl
    | cons b bs => rw [ltComponents, List.lex, ih]

theorem lt_iff_lex :
    lt p q = true ↔
      List.Lex (fun a b => Component.lt a b = true) (components p) (components q) := by
  rw [lt, ltComponents_eq_lex, List.lex_eq_true_iff_lex]

theorem lt_irrefl (p : Text) : ¬lt p p = true := by
  rw [lt_iff_lex]
  exact List.lex_irrefl Component.lt_irrefl _

theorem lt_trans (hpq : lt p q = true) (hqr : lt q r = true) : lt p r = true := by
  rw [lt_iff_lex] at hpq hqr ⊢
  exact List.lex_trans Component.lt_trans hpq hqr

/-- Of two paths that do not have the same components one comes first. -/
theorem lt_total (hpq : ¬lt p q = true) (hne : ¬same p q = true) : lt q p = true := by
  have htri : Std.Trichotomous fun a b => Component.lt a b = true := ⟨fun _ _ => Component.lt_total⟩
  rw [lt_iff_lex] at hpq ⊢
  by_contra hqp
  exact hne (beq_iff_eq.mpr (Std.Trichotomous.trichotomous _ _ hpq hqp))

theorem mem_of_mem_insert {qs : List Text} (h : r ∈ insert p qs) : r = p ∨ r ∈ qs := by
  induction qs with
  | nil => exact Or.inl (List.mem_singleton.mp h)
  | cons q qs ih =>
    rw [insert] at h
    split at h
    · exact List.mem_cons.mp h
    · split at h
      · exact Or.inr h
      · rcases List.mem_cons.mp h with rfl | h
        · exact Or.inr List.mem_cons_self
        · exact (ih h).imp_right (List.mem_cons_of_mem q)

theorem increasing_insert {qs : List Text} (h : qs.Pairwise fun p q => lt p q = true) (p : Text) :
    (insert p qs).Pairwise fun p q => lt p q = true := by
  induction qs with
  | nil => exact List.pairwise_singleton _ _
  | cons q qs ih =>
    obtain ⟨hq, hqs⟩ := List.pairwise_cons.mp h
    rw [insert]
    split
    · rename_i hpq
      refine List.pairwise_cons.mpr ⟨fun r hr => ?_, h⟩
      rcases List.mem_cons.mp hr with rfl | hr
      · exact hpq
      · exact lt_trans hpq (hq r hr)
    · rename_i hpq
      split
      · exact h
      · rename_i hne
        refine List.pairwise_cons.mpr ⟨fun r hr => ?_, ih hqs⟩
        rcases mem_of_mem_insert hr with rfl | hr
        · exact lt_total hpq hne
        · exact hq r hr

theorem increasing_sorted (ps : List Text) : (sorted ps).Pairwise fun p q => lt p q = true := by
  have hfold : ∀ qs : List Text, (qs.Pairwise fun p q => lt p q = true) →
      (ps.foldl (fun s p => insert p s) qs).Pairwise fun p q => lt p q = true := by
    induction ps with
    | nil => exact fun qs h => h
    | cons p ps ih => exact fun qs h => ih _ (increasing_insert h p)
  exact hfold [] List.Pairwise.nil

theorem mem_insert_of_mem {qs : List Text} (h : r ∈ qs) : r ∈ insert p qs := by
  induction qs with
  | nil => cases h
  | cons q qs ih =>
    rw [insert]
    split
    · exact List.mem_cons_of_mem p h
    · split
      · exact h
      · rcases List.mem_cons.mp h with rfl | h
        · exact List.mem_cons_self
        · exact List.mem_cons_of_mem q (ih h)

theorem exists_mem_insert (p : Text) (qs : List Text) :
    ∃ q ∈ insert p qs, components q = components p := by
  induction qs with
  | nil => exact ⟨p, List.mem_singleton_self p, rfl⟩
  | cons q qs ih =>
    rw [insert]
    split
    · exact ⟨p, List.mem_cons_self, rfl⟩
    · split
      · rename_i hsame
        exact ⟨q, List.mem_cons_self, (eq_of_beq hsame).symm⟩
      · obtain ⟨r, hr, heq⟩ := ih
        exact ⟨r, List.mem_cons_of_mem q hr, heq⟩

theorem mem_of_mem_foldl {ps qs : List Text} (h : r ∈ ps.foldl (fun s p => insert p s) qs) :
    r ∈ ps ∨ r ∈ qs := by
  induction ps generalizing qs with
  | nil => exact Or.inr h
  | cons p ps ih =>
    rcases ih h with h | h
    · exact Or.inl (List.mem_cons_of_mem p h)
    · exact (mem_of_mem_insert h).imp_left fun heq => List.mem_cons.mpr (Or.inl heq)

theorem mem_foldl_of_mem {ps qs : List Text} (h : r ∈ qs) :
    r ∈ ps.foldl (fun s p => insert p s) qs := by
  induction ps generalizing qs with
  | nil => exact h
  | cons p ps ih => exact ih (mem_insert_of_mem h)

theorem mem_of_mem_sorted {ps : List Text} (h : r ∈ sorted ps) : r ∈ ps :=
  (mem_of_mem_foldl h).resolve_right List.not_mem_nil

/-- Of the spellings of a path one stays. -/
theorem exists_mem_sorted {ps : List Text} (h : p ∈ ps) :
    ∃ q ∈ sorted ps, components q = components p := by
  have hfold : ∀ qs : List Text, ∃ q ∈ ps.foldl (fun s p => insert p s) qs,
      components q = components p := by
    induction ps with
    | nil => cases h
    | cons r ps ih =>
      intro qs
      rcases List.mem_cons.mp h with rfl | h
      · obtain ⟨q, hq, heq⟩ := exists_mem_insert p qs
        rw [List.foldl_cons]
        exact ⟨q, mem_foldl_of_mem hq, heq⟩
      · exact ih h _
  exact hfold []

/-- Nothing is lost if no path is spelled in two ways. -/
theorem mem_sorted_iff {ps : List Text}
    (hps : ∀ p ∈ ps, ∀ q ∈ ps, components p = components q → p = q) :
    p ∈ sorted ps ↔ p ∈ ps := by
  refine ⟨mem_of_mem_sorted, fun hp => ?_⟩
  obtain ⟨q, hq, heq⟩ := exists_mem_sorted hp
  obtain rfl := hps q (mem_of_mem_sorted hq) p hp heq
  exact hq

theorem nodup_of_increasing {ps : List Text} (h : ps.Pairwise fun p q => lt p q = true) :
    ps.Nodup := by
  refine h.imp fun hlt heq => ?_
  subst heq
  exact lt_irrefl _ hlt

theorem eq_of_increasing {ps qs : List Text} (hps : ps.Pairwise fun p q => lt p q = true)
    (hqs : qs.Pairwise fun p q => lt p q = true) (h : ∀ p, p ∈ ps ↔ p ∈ qs) : ps = qs := by
  have hperm : ps.Perm qs :=
    (List.perm_ext_iff_of_nodup (nodup_of_increasing hps) (nodup_of_increasing hqs)).mpr h
  refine hperm.eq_of_pairwise (fun p q _ _ hpq hqp => ?_) hps hqs
  exact absurd (lt_trans hpq hqp) (lt_irrefl p)

end Path

/-- The files that are found are distinct. -/
theorem Discovery.nodup_collect {fs : FileTree} {filter : PathFilter} {inputs files : List Text}
    (h : collect fs filter inputs = .ok files) : files.Nodup := by
  unfold collect at h
  split at h
  · cases h
  · obtain rfl := Except.ok.inj h
    exact Path.nodup_of_increasing (Path.increasing_sorted _)

end DocCoverage
