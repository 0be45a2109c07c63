import DocCoverage.Proofs.Scan.Reading

/-!
# Spans divide their text

In a scanned tree every span holds exactly its slice of the source, its children stand in order
between its opener and its end, and the text outside the children together with the children's
texts is the whole text of the span: at one level no byte is lost and none is covered twice.
-/
namespace DocCoverage

namespace Span

/-- Put the texts of children back into a text from which they were cut, from offset `first` on. -/
def restoreFrom? (first : Nat) (own : Text) : List Span → Option Text
  | [] => some own
  | c :: rest => do
    let (gap, after) ← Text.splitAt? (c.start - first) own
    return gap ++ (c.text ++ (← restoreFrom? c.stop after rest))

/-- Put the texts of a span's children back into its own text, each at its place. -/
def restore? (s : Span) (own : Text) : Option Text := restoreFrom? s.start own s.children

/-- A span holds its slice of the source, divided by its children. -/
structure Divides (source : Text) (s : Span) : Prop where
  slice : Text.slice? source s.start s.stop = some s.text
  inside : ∀ c ∈ s.children, s.start + (Rule.standard s.kind).opener s.text ≤ c.start ∧
    c.start < c.stop ∧ c.stop ≤ s.stop
  ordered : s.children.Pairwise fun c d => c.stop ≤ d.start
  restored : ∃ own, s.ownText? = some own ∧ s.restore? own = some s.text

theorem gap?_eq_some {s : Span} {front g after : Text} {first last : Nat}
    (ht : s.text = front ++ (g ++ after)) (hf : first = s.start + Text.byteLength front)
    (hl : last = first + Text.byteLength g) : s.gap? first last = some g := by
  unfold gap?
  have h1 : ¬ first < s.start := by omega
  have h2 : ¬ last < s.start := by omega
  simp only [h1, h2, decide_false, Bool.or_self, Bool.false_eq_true, if_false]
  exact Text.slice?_eq_some_iff.mpr ⟨front, after, ht, by omega, by omega⟩

/-- The gaps from one offset on exist, and with the children between them they are the text from
that offset on. -/
theorem restoreFrom?_gaps {s : Span} (hstop : s.stop = s.start + Text.byteLength s.text)
    (cs : List Span) (first : Nat) (front t : Text) (ht : s.text = front ++ t)
    (hf : first = s.start + Text.byteLength front) (hle : ∀ c ∈ cs, first ≤ c.start)
    (hord : cs.Pairwise fun c d => c.stop ≤ d.start)
    (hcs : ∀ c ∈ cs,
      Text.slice? s.text (c.start - s.start) (c.stop - s.start) = some c.text ∧
        c.start < c.stop) :
    ∃ gaps, s.gapsFrom? first cs = some gaps ∧
      restoreFrom? first gaps.flatten cs = some t := by
  induction cs generalizing first front t with
  | nil =>
    have hgap : s.gap? first s.stop = some t := by
      refine gap?_eq_some (show s.text = front ++ (t ++ []) by simpa using ht) hf ?_
      rw [hstop, ht, hf, Text.byteLength_append]
      omega
    exact ⟨[t], by simp [gapsFrom?, hgap], by simp [restoreFrom?]⟩
  | cons c cs ih =>
    have hfirst := hle c (by simp)
    obtain ⟨hslice, hlt⟩ := hcs c (by simp)
    obtain ⟨a, b, hab, ha, hlen⟩ := Text.slice?_eq_some_iff.mp hslice
    -- the gap is what the front of the child has beyond the front of the span
    obtain ⟨g, rfl, rfl⟩ := Text.append_split_of_le (ht.symm.trans hab) (by omega)
    rw [Text.byteLength_append] at ha
    have hgap : s.gap? first c.start = some g := gap?_eq_some ht hf (by omega)
    obtain ⟨gaps, hgaps, hrest⟩ := ih c.stop (front ++ (g ++ c.text)) b (by simp [ht])
      (by simp; omega) (List.pairwise_cons.mp hord).1 (List.pairwise_cons.mp hord).2
      fun d hd => hcs d (by simp [hd])
    have hcut : Text.splitAt? (c.start - first) (g ++ gaps.flatten) = some (g, gaps.flatten) :=
      Text.splitAt?_append (by omega)
    exact ⟨g :: gaps, by simp [gapsFrom?, hgap, hgaps], by simp [restoreFrom?, hcut, hrest]⟩

end Span

theorem Rule.standard_opener (k : SpanKind) (t t' : Text) :
    (Rule.standard k).opener t = (Rule.standard k).opener t' := by
  cases k <;> rfl

theorem Rule.standard_opener_refine (parent k : SpanKind) (t t' : Text) :
    (Rule.standard (parent.refine t k)).opener t' = (Rule.standard k).opener t' := by
  unfold SpanKind.refine
  split
  · rename_i h
    simp only [Bool.and_eq_true, beq_iff_eq] at h
    rw [h.1.2]
    rfl
  · rfl

theorem Opening.Placed.slice {table : RuleTable} {source : Text} {s : Span}
    (h : (⟨.file, 0, 0, source⟩ : Opening).Placed table s) :
    Text.slice? source s.start s.stop = some s.text := by
  obtain ⟨front, t, ht, hs, hread⟩ := h
  obtain ⟨after, hafter⟩ := hread.text_eq
  simp only [Span.opening] at hafter
  subst hafter
  simp only [Nat.zero_add] at hs
  exact Text.slice?_eq_some_iff.mpr ⟨front, after, ht, hs.symm, hread.stop_eq.symm⟩

theorem file_stop {options : ScanOptions} {source : Text} {tree : Span}
    (h : scan options source = .ok tree) :
    tree.kind = .file ∧ tree.start = 0 ∧ tree.stop = Text.byteLength source := by
  obtain ⟨consumed, h⟩ := RuleTable.scan_eq_ok_iff.mp h
  have hread := (scanSpan_sound Rule.standard_regular h).reading
  refine ⟨hread.kind_eq, hread.start_eq, ?_⟩
  cases hread.ending with
  | closed e cur place behind bare idle fires => cases fires
  | ranOut stop_eq => simpa using stop_eq
  | decorated kind => cases kind

theorem Opening.Placed.divides {source : Text} {s : Span}
    (h : ∀ d ∈ s.preorder, (⟨.file, 0, 0, source⟩ : Opening).Placed Rule.standard d) :
    s.Divides source := by
  have hself := h s s.self_mem_preorder
  have hslice := hself.slice
  obtain ⟨front, t, ht, hs, hread⟩ := hself
  have hinside : ∀ c ∈ s.children, s.start + (Rule.standard s.kind).opener s.text ≤ c.start ∧
      c.start < c.stop ∧ c.stop ≤ s.stop := by
    intro c hc
    rw [Rule.standard_opener s.kind s.text t]
    exact hread.inside c hc
  refine ⟨hslice, hinside, hread.ordered, ?_⟩
  have hchild : ∀ c ∈ s.children,
      Text.slice? s.text (c.start - s.start) (c.stop - s.start) = some c.text ∧
        c.start < c.stop := by
    intro c hc
    have hin := hinside c hc
    have hp := h c (Span.child_mem_preorder hc)
    exact ⟨Text.slice?_inner hslice hp.slice (by omega) hin.2.2, hin.2.1⟩
  obtain ⟨gaps, hgaps, hrestore⟩ := Span.restoreFrom?_gaps hread.stop_eq s.children s.start []
    s.text rfl (by simp) (fun c hc => by have := hinside c hc; omega) hread.ordered hchild
  exact ⟨gaps.flatten, by simp [Span.ownText?, hgaps], hrestore⟩

theorem divides_of_mem_preorder {options : ScanOptions} {source : Text} {tree s : Span}
    (h : scan options source = .ok tree) (hs : s ∈ tree.preorder) : s.Divides source :=
  Opening.Placed.divides fun d hd =>
    Rule.standard_regular.scan_placed h d (Span.preorder_trans hd hs)

/-- A scanned tree covers its source, and at every level the children divide the text of their
span: nothing is lost, nothing is covered twice. -/
theorem scan_divides {options : ScanOptions} {source : Text} {tree : Span}
    (h : scan options source = .ok tree) :
    tree.kind = .file ∧ tree.start = 0 ∧ tree.stop = Text.byteLength source ∧
      ∀ s ∈ tree.preorder, s.Divides source := by
  obtain ⟨hkind, hstart, hstop⟩ := file_stop h
  exact ⟨hkind, hstart, hstop, fun s hs => divides_of_mem_preorder h hs⟩

/-- Brackets, a placeholder and a string that is never closed. -/
theorem scan_divides_unclosed : ∃ tree, scan {} "x = (f'\x7ba\x7d', 'é)\n" = .ok tree ∧
    tree.preorder.length = 5 ∧ tree.kind = .file ∧ tree.start = 0 ∧
    tree.stop = Text.byteLength "x = (f'\x7ba\x7d', 'é)\n" ∧
    ∀ s ∈ tree.preorder, s.Divides "x = (f'\x7ba\x7d', 'é)\n" := by
  have h : (scan {} "x = (f'\x7ba\x7d', 'é)\n").toOption.any
      (fun tree => tree.preorder.length == 5) = true := by decide +kernel
  obtain ⟨tree, htree, hlen⟩ := scan_ok_of_any h
  exact ⟨tree, htree, eq_of_beq hlen, scan_divides htree⟩

end DocCoverage
