import DocCoverage.Proofs.Text.Sorted

/-!
# Maps as lists of pairs

A map is a list of pairs with strictly increasing keys. Binding a key keeps the keys increasing and
changes no other look-up, and binding the pairs of such a list in turn builds the list.
-/
namespace DocCoverage.Text

variable {α : Type} {k l : Text} {v : α} {es ms : List (Text × α)}

/-- The keys are strictly increasing. -/
def Increasing (es : List (Text × α)) : Prop := es.Pairwise fun a b => lt a.1 b.1 = true

theorem lt_irrefl (t : Text) : lt t t = false := by
  induction t with
  | nil => rfl
  | cons c t ih => simp [lt, ih]

theorem lookup_bind (k l : Text) (v : α) (es : List (Text × α)) :
    (bind k v es).lookup l = if l = k then some v else es.lookup l := by
  induction es with
  | nil => by_cases hl : l = k <;> simp [bind, hl]
  | cons a es ih =>
    obtain ⟨m, w⟩ := a
    rw [bind]
    split
    · by_cases hl : l = k
      · simp [hl]
      · have hlk : (l == k) = false := by simpa using hl
        rw [List.lookup_cons, hlk, if_neg hl]
    · split
      · rename_i hkm
        obtain rfl := eq_of_beq hkm
        by_cases hl : l = k
        · simp [hl]
        · have hlk : (l == k) = false := by simpa using hl
          rw [List.lookup_cons, List.lookup_cons, hlk, if_neg hl]
      · rename_i hkm
        rw [List.lookup_cons, List.lookup_cons, ih]
        by_cases hl : l = m
        · subst hl
          have hne : l ≠ k := fun h => hkm (by simp [h])
          simp [hne]
        · have hlm : (l == m) = false := by simpa using hl
          rw [hlm]

theorem mem_of_mem_bind {a : Text × α} (h : a ∈ bind k v es) : a = (k, v) ∨ a ∈ es := by
  induction es with
  | nil => exact Or.inl (List.mem_singleton.mp h)
  | cons b es ih =>
    obtain ⟨m, w⟩ := b
    rw [bind] at h
    split at h
    · exact List.mem_cons.mp h
    · split at h
      · exact (List.mem_cons.mp h).imp_right (List.mem_cons_of_mem _)
      · rcases List.mem_cons.mp h with rfl | h
        · exact Or.inr List.mem_cons_self
        · exact (ih h).imp_right (List.mem_cons_of_mem _)

theorem Increasing.bind (h : Increasing es) (k : Text) (v : α) : Increasing (bind k v es) := by
  induction es with
  | nil => exact List.pairwise_singleton _ _
  | cons a es ih =>
    obtain ⟨m, w⟩ := a
    obtain ⟨hm, hes⟩ := List.pairwise_cons.mp h
    rw [Text.bind]
    split
    · rename_i hkm
      refine List.pairwise_cons.mpr ⟨fun b hb => ?_, h⟩
      rcases List.mem_cons.mp hb with rfl | hb
      · exact hkm
      · exact lt_trans hkm (hm b hb)
    · rename_i hkm
      split
      · rename_i heq
        obtain rfl := eq_of_beq heq
        exact List.pairwise_cons.mpr ⟨hm, hes⟩
      · rename_i hne
        refine List.pairwise_cons.mpr ⟨fun b hb => ?_, ih hes⟩
        rcases mem_of_mem_bind hb with rfl | hb
        · exact lt_total (Bool.eq_false_iff.mpr hkm) (by simpa using hne)
        · exact hm b hb

theorem bind_eq_append (h : ∀ a ∈ es, lt a.1 k = true) : bind k v es = es ++ [(k, v)] := by
  induction es with
  | nil => rfl
  | cons a es ih =>
    obtain ⟨m, w⟩ := a
    have hmk : lt m k = true := h (m, w) List.mem_cons_self
    have hkm : lt k m = false := by
      by_contra hkm
      have hmm := lt_trans hmk (Bool.of_not_eq_false hkm)
      rw [lt_irrefl] at hmm
      cases hmm
    have hne : (k == m) = false := by
      rw [beq_eq_false_iff_ne]
      rintro rfl
      rw [lt_irrefl] at hmk
      cases hmk
    rw [bind, hkm, hne, ih fun a ha => h a (List.mem_cons_of_mem _ ha)]
    rfl

theorem foldl_bind (h : Increasing (es ++ ms)) :
    ms.foldl (fun es m => bind m.1 m.2 es) es = es ++ ms := by
  induction ms generalizing es with
  | nil => simp
  | cons m ms ih =>
    have hbefore : ∀ a ∈ es, lt a.1 m.1 = true := fun a ha =>
      (List.pairwise_append.mp h).2.2 a ha m List.mem_cons_self
    have hassoc : es ++ m :: ms = (es ++ [m]) ++ ms := by simp
    rw [List.foldl_cons, bind_eq_append hbefore, hassoc]
    exact ih (hassoc ▸ h)

end DocCoverage.Text
