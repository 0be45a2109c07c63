import DocCoverage.Proofs.Scan.Partition

/-!
# Nested and disjoint spans

Below a span everything lies inside it, and behind its first byte unless it is the file. In preorder
a span is followed by what stands in it and then by what starts behind its end.
-/
namespace DocCoverage

namespace Opening.Placed

variable {table : RuleTable} {o : Opening} {s : Span}

theorem stop_le (h : ∀ d ∈ s.preorder, o.Placed table d) : ∀ d ∈ s.preorder, d.stop ≤ s.stop := by
  induction s using Span.tree_induction with
  | node s ih =>
    intro d hd
    rcases Span.mem_preorder.mp hd with rfl | ⟨c, hc, hdc⟩
    · exact Nat.le_refl _
    · obtain ⟨_, _, _, _, hread⟩ := h s s.self_mem_preorder
      have hin := hread.inside c hc
      have hle := ih c hc
        (fun e he => h e (Span.preorder_trans he (Span.child_mem_preorder hc))) d hdc
      omega

theorem start_le (h : ∀ d ∈ s.preorder, o.Placed table d) :
    ∀ d ∈ s.preorder, s.start ≤ d.start := by
  induction s using Span.tree_induction with
  | node s ih =>
    intro d hd
    rcases Span.mem_preorder.mp hd with rfl | ⟨c, hc, hdc⟩
    · exact Nat.le_refl _
    · obtain ⟨_, _, _, _, hread⟩ := h s s.self_mem_preorder
      have hin : s.start + _ ≤ c.start ∧ _ := hread.inside c hc
      have hle := ih c hc
        (fun e he => h e (Span.preorder_trans he (Span.child_mem_preorder hc))) d hdc
      omega

theorem start_lt_stop (h : ∀ d ∈ s.preorder, o.Placed table d) :
    ∀ d ∈ s.descendants, d.start < d.stop := by
  intro d hd
  obtain ⟨q, hq, hdq⟩ := Span.exists_parent hd
  obtain ⟨_, _, _, _, hread⟩ := h q hq
  exact (hread.inside d hdq).2.1

/-- What stands in a span other than the file starts behind its opener. -/
theorem start_lt (hr : table.Regular) (h : ∀ d ∈ s.preorder, o.Placed table d)
    (hkind : s.kind ≠ .file) : ∀ d ∈ s.descendants, s.start < d.start := by
  intro d hd
  obtain ⟨c, hc, hdc⟩ := Span.mem_descendants.mp hd
  obtain ⟨_, t, _, _, hread⟩ := h s s.self_mem_preorder
  have hin : s.start + _ ≤ c.start ∧ _ := hread.inside c hc
  have hpos := hr.opener_pos s.kind t hkind
  have hle := start_le
    (fun e he => h e (Span.preorder_trans he (Span.child_mem_preorder hc))) d hdc
  simp only [width, Span.opening] at hin
  omega

/-- In preorder a span comes before what stands in it and before what starts behind its end. -/
theorem pairwise_preorder (h : ∀ d ∈ s.preorder, o.Placed table d) :
    s.preorder.Pairwise fun q d => d ∈ q.descendants ∨ q.stop ≤ d.start := by
  induction s using Span.tree_induction with
  | node s ih =>
    have hbelow : ∀ c ∈ s.children, ∀ d ∈ c.preorder, o.Placed table d := fun c hc d hd =>
      h d (Span.preorder_trans hd (Span.child_mem_preorder hc))
    rw [Span.preorder, List.pairwise_cons]
    refine ⟨fun d hd => Or.inl hd, ?_⟩
    rw [Span.descendants_eq, Span.forest_eq_flatMap, List.pairwise_flatMap]
    refine ⟨fun c hc => ih c hc (hbelow c hc), ?_⟩
    obtain ⟨_, _, _, _, hread⟩ := h s s.self_mem_preorder
    -- of two children the first ends before the second starts
    refine hread.ordered.imp_of_mem fun {c d} hc hd hle x hx y hy => Or.inr ?_
    have hstop := stop_le (hbelow c hc) x hx
    have hstart := start_le (hbelow d hd) y hy
    omega

theorem kind_ne_file (hr : table.Regular) (h : ∀ d ∈ s.preorder, o.Placed table d) :
    ∀ d ∈ s.descendants, d.kind ≠ .file := by
  intro d hd
  obtain ⟨q, hq, hdq⟩ := Span.exists_parent hd
  obtain ⟨_, t, _, _, hread⟩ := h q hq
  obtain ⟨_, k, -, hdispatch, hkind⟩ := hread.opened d hdq
  rw [← hkind]
  exact SpanKind.refine_ne_file _ _ (hr.dispatch_ne_file hdispatch)

theorem pairwise_start_lt (hr : table.Regular) (h : ∀ d ∈ s.preorder, o.Placed table d) :
    s.descendants.Pairwise fun q d => q.start < d.start := by
  have hpairs := (List.pairwise_cons.mp (pairwise_preorder h)).2
  refine hpairs.imp_of_mem fun {q d} hq hd hqd => ?_
  rcases hqd with hin | hle
  · have hbelow : ∀ e ∈ q.preorder, o.Placed table e := fun e he =>
      h e (Span.preorder_trans he (List.mem_cons_of_mem s hq))
    exact start_lt hr hbelow (kind_ne_file hr h q hq) d hin
  · have hlt := start_lt_stop h q hq
    omega

theorem nested_or_disjoint (h : ∀ d ∈ s.preorder, o.Placed table d) :
    ∀ q ∈ s.preorder, ∀ d ∈ s.preorder,
      d ∈ q.preorder ∨ q ∈ d.preorder ∨ q.stop ≤ d.start ∨ d.stop ≤ q.start := by
  have hpairs := pairwise_preorder h
  intro q hq d hd
  refine List.Pairwise.forall_of_forall_of_flip
    (R := fun q d => d ∈ q.preorder ∨ q ∈ d.preorder ∨ q.stop ≤ d.start ∨ d.stop ≤ q.start)
    (fun q _ => Or.inl q.self_mem_preorder) (hpairs.imp fun {q d} hqd => ?_)
    (hpairs.imp fun {d q} hdq => ?_) hq hd
  · rcases hqd with hin | hle
    · exact Or.inl (List.mem_cons_of_mem q hin)
    · exact Or.inr (Or.inr (Or.inl hle))
  · rcases hdq with hin | hle
    · exact Or.inr (Or.inl (List.mem_cons_of_mem d hin))
    · exact Or.inr (Or.inr (Or.inr hle))

end Opening.Placed

theorem scan_kind_ne_file {options : ScanOptions} {source : Text} {tree : Span}
    (h : scan options source = .ok tree) : ∀ d ∈ tree.descendants, d.kind ≠ .file :=
  Opening.Placed.kind_ne_file Rule.standard_regular (Rule.standard_regular.scan_placed h)

end DocCoverage
