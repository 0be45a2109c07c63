import DocCoverage.Proofs.Scan.Reading

/-!
# The indentation in force

A span goes on with the indentation it opened with until it passes a line feed outside its children;
from then on it has the number of spaces behind the last such line feed. A child opens with the
indentation that the span has where the child starts, whatever the children in front of it contain.
-/
namespace DocCoverage

namespace Opening

variable (table : RuleTable) (o : Opening)

/-- A line feed of the span, behind its opener and outside the children, with `t` behind it. -/
structure OwnLine (children : List Span) (n : Nat) (t : Text) : Prop where
  place : ∃ back, Cursor.at? o.text n = some ⟨back, '\n' :: t⟩
  behind : o.width table ≤ n
  bare : ¬ Covered children (o.start + n)

/-- The indentation in force `n` bytes behind the start of the span. -/
inductive InForce (children : List Span) (n : Nat) : Nat → Prop
  /-- No line feed of the span stands in front of the place. -/
  | opened (none : ∀ m t, m < n → ¬ o.OwnLine table children m t) : InForce children n o.indent
  /-- The last line feed of the span in front of the place. -/
  | behind (m : Nat) (t : Text) (own : o.OwnLine table children m t) (before : m < n)
      (last : ∀ m' t', m < m' → m' < n → ¬ o.OwnLine table children m' t') :
      InForce children n (leadingSpaces t)

/-- Every child has the indentation in force where it starts. -/
def Indents (children : List Span) : Prop :=
  ∀ c ∈ children, o.InForce table children (c.start - o.start) c.indent

/-- In a span and everywhere below it the children have the indentations in force. -/
def IndentsBelow (s : Span) : Prop :=
  ∀ d ∈ s.preorder, ∃ front t, o.text = front ++ t ∧
    d.start = o.start + Text.byteLength front ∧ (d.opening t).Indents table d.children

/-- The indentations of a span in the middle of its text. -/
structure Indented (p : Progress) : Prop where
  inForce : o.InForce table p.children (Text.byteLength p.back) p.lineIndent
  indents : o.Indents table p.children
  below : ∀ c ∈ p.children, o.IndentsBelow table c

end Opening

namespace Opening

variable {table : RuleTable} {o : Opening} {children children' : List Span} {n k : Nat}
  {p : Progress} {c : Char} {rest : Text}

theorem OwnLine.congr {m : Nat} {t : Text}
    (hc : Covered children (o.start + m) ↔ Covered children' (o.start + m))
    (h : o.OwnLine table children m t) : o.OwnLine table children' m t where
  place := h.place
  behind := h.behind
  bare := fun hcov => h.bare (hc.mpr hcov)

namespace InForce

theorem congr (hc : ∀ m < n, Covered children (o.start + m) ↔ Covered children' (o.start + m))
    (h : o.InForce table children n k) : o.InForce table children' n k := by
  cases h with
  | opened none => exact .opened fun m t hm own => none m t hm (own.congr (hc m hm).symm)
  | behind m t own before last =>
    refine .behind m t (own.congr (hc m before)) before fun m' t' hlt hm own' => ?_
    exact last m' t' hlt hm (own'.congr (hc m' hm).symm)

theorem further {n' : Nat} (h : o.InForce table children n k) (hle : n ≤ n')
    (hnone : ∀ m t, n ≤ m → m < n' → ¬ o.OwnLine table children m t) :
    o.InForce table children n' k := by
  cases h with
  | opened none =>
    refine .opened fun m t hm => ?_
    by_cases hn : m < n
    · exact none m t hn
    · exact hnone m t (by omega) hm
  | behind m t own before last =>
    refine .behind m t own (by omega) fun m' t' hlt hm => ?_
    by_cases hn : m' < n
    · exact last m' t' hlt hn
    · exact hnone m' t' (by omega) hm

/-- Behind the last line feed of the span the spaces there are in force. -/
theorem eq_leadingSpaces {m : Nat} {t : Text} (h : o.InForce table children n k)
    (own : o.OwnLine table children m t) (before : m < n)
    (hlast : ∀ m' t', m < m' → m' < n → ¬ o.OwnLine table children m' t') :
    k = leadingSpaces t := by
  cases h with
  | opened none => exact absurd own (none m t before)
  | behind m' t' own' before' last =>
    rcases Nat.lt_trichotomy m m' with hlt | rfl | hlt
    · exact absurd own' (hlast m' t' hlt before')
    · obtain ⟨_, hplace⟩ := own.place
      obtain ⟨_, hplace'⟩ := own'.place
      rw [hplace, Option.some.injEq, Cursor.mk.injEq, List.cons.injEq] at hplace'
      rw [hplace'.2.2]
    · exact absurd own (last m t hlt before)

end InForce

theorem Indents.congr (hc : ∀ s ∈ children', s ∈ children) (hc' : ∀ s ∈ children, s ∈ children')
    (h : o.Indents table children) : o.Indents table children' := by
  refine fun c hmem => (h c (hc c hmem)).congr fun m _ => ⟨?_, ?_⟩
  · exact fun ⟨s, hs, hcov⟩ => ⟨s, hc' s hs, hcov⟩
  · exact fun ⟨s, hs, hcov⟩ => ⟨s, hc s hs, hcov⟩

namespace Indented

theorem begin (opened : Text)
    (hl : Text.byteLength opened = min (o.width table) (Text.byteLength o.text)) :
    o.Indented table (o.begin opened) where
  inForce := by
    refine .opened fun m t hm own => ?_
    have hbehind := own.behind
    simp only [Opening.begin, Text.byteLength_reverse, hl] at hm
    omega
  indents := by simp [Indents, Opening.begin]
  below := by simp [Opening.begin]

theorem skip (h : o.Indented table p) (hm : o.Midway table p (c :: rest))
    (inside : p.pos < p.resumeAt) : o.Indented table (p.skip c) where
  inForce := by
    refine h.inForce.further (Nat.le_add_left _ _) fun m t hle hlt own => own.bare ?_
    obtain ⟨_, hplace⟩ := own.place
    obtain ⟨s, hs, hstart, hstop⟩ := hm.inLast inside
    have hat := Cursor.eq_of_at? hm.text_eq hplace hle hlt
    have hlen := (Cursor.at?_eq_some_iff.mp hplace).2
    have hpos := hm.pos_eq
    rw [hat] at hlen
    simp only at hlen
    exact ⟨s, hs, by omega, by omega⟩
  indents := h.indents
  below := h.below

theorem step (h : o.Indented table p) (hm : o.Midway table p (c :: rest))
    (outside : ¬ p.pos < p.resumeAt) : o.Indented table (p.step c rest) where
  inForce := by
    by_cases hc : c = '\n'
    · subst hc
      refine .behind (Text.byteLength p.back) rest ⟨⟨_, hm.place⟩, hm.width_le, hm.bare outside⟩
        (Nat.lt_add_of_pos_left ('\n').utf8Size_pos) fun m t hlt hlt' own => ?_
      obtain ⟨_, hplace⟩ := own.place
      have hat := Cursor.eq_of_at? hm.text_eq hplace (Nat.le_of_lt hlt) hlt'
      have hlen := (Cursor.at?_eq_some_iff.mp hplace).2
      rw [hat] at hlen
      exact Nat.ne_of_lt hlt hlen
    · have hindent : (p.step c rest).lineIndent = p.lineIndent := by simp [Progress.step, hc]
      rw [hindent]
      refine h.inForce.further (Nat.le_add_left _ _) fun m t hle hlt own => ?_
      obtain ⟨_, hplace⟩ := own.place
      have hat := Cursor.eq_of_at? hm.text_eq hplace hle hlt
      rw [Cursor.mk.injEq, List.cons.injEq] at hat
      exact hc hat.2.1.symm
  indents := h.indents
  below := h.below

theorem adopt {kind : SpanKind} {s : Scanned} (h : o.Indented table p)
    (hm : o.Midway table p (c :: rest)) (outside : ¬ p.pos < p.resumeAt)
    (hs : (o.inner p kind (c :: rest)).Sound table s)
    (hbelow : (o.inner p kind (c :: rest)).IndentsBelow table s.span)
    (hadv : s.span.start < s.span.stop) : o.Indented table (p.adopt c s) := by
  have hstart : s.span.start = p.pos := hs.reading.start_eq
  have hpos := hm.pos_eq
  -- in front of the new child the same places are covered as before
  have hcov : ∀ m < Text.byteLength p.back,
      (Covered p.children (o.start + m) ↔ Covered (s.span :: p.children) (o.start + m)) := by
    intro m hlt
    simp only [Covered, List.mem_cons, exists_eq_or_imp]
    refine ⟨Or.inr, fun hor => hor.resolve_left fun ⟨hle, _⟩ => ?_⟩
    omega
  have hforce := h.inForce.congr hcov
  constructor
  · refine hforce.further (Nat.le_add_left _ _) fun m t hle hlt own => own.bare ?_
    obtain ⟨_, hplace⟩ := own.place
    have hat := Cursor.eq_of_at? hm.text_eq hplace hle hlt
    have hlen := (Cursor.at?_eq_some_iff.mp hplace).2
    rw [hat] at hlen
    simp only at hlen
    exact ⟨s.span, List.mem_cons_self, by omega, by omega⟩
  · intro d hd
    rcases List.mem_cons.mp hd with rfl | hd
    · rw [show s.span.start - o.start = Text.byteLength p.back by omega, hs.reading.indent_eq]
      exact hforce
    · have hin := hm.inside d hd
      exact (h.indents d hd).congr fun m hlt => hcov m (by omega)
  · intro d hd
    rcases List.mem_cons.mp hd with rfl | hd
    · intro e he
      obtain ⟨front, t, ht, hes, hindents⟩ := hbelow e he
      refine ⟨p.back.reverse ++ front, t, ?_, ?_, hindents⟩
      · rw [hm.text_eq, List.append_assoc]
        exact congrArg (p.back.reverse ++ ·) ht
      · simp only [Opening.inner] at hes
        rw [Text.byteLength_append, Text.byteLength_reverse]
        omega
    · exact h.below d hd

theorem close (h : o.Indented table p) (stop : Nat) (flag : Bool) :
    o.IndentsBelow table (o.close stop flag p.children.reverse) := by
  intro d hd
  rcases Span.mem_preorder.mp hd with rfl | ⟨c, hc, hd⟩
  · exact ⟨[], o.text, rfl, by simp [Opening.close],
      h.indents.congr (fun _ hs => List.mem_reverse.mp hs) fun _ hs => List.mem_reverse.mpr hs⟩
  · exact h.below c (List.mem_reverse.mp hc) d hd

end Indented

end Opening

/-- Every run from the middle of a text leaves the indentations in force. -/
theorem Reads.indentsBelow {table : RuleTable} (hr : table.Regular) {o : Opening} {p : Progress}
    {t : Text} {r : Scanned}
    (h : Reads table (fun q s => q.Sound table s ∧ q.IndentsBelow table s.span) o p t r)
    (hm : o.Midway table p t) (hi : o.Indented table p) : o.IndentsBelow table r.span := by
  have hadv : ∀ {p : Progress} {c : Char} {rest : Text} {kind : SpanKind} {s : Scanned},
      table.dispatch (table o.kind) ⟨p.back, c :: rest⟩ = some kind →
      (o.inner p kind (c :: rest)).Sound table s → s.span.start < s.span.stop :=
    fun opens hs => hs.advances (SpanKind.refine_ne_file _ _ (hr.dispatch_ne_file opens))
      (List.cons_ne_nil _ _)
  induction h with
  | atEnd p => exact hi.close _ _
  | inChild inside _ ih => exact ih (hm.skip inside) (hi.skip hm inside)
  | takesUp outside opens scanned _ _ ih =>
    exact ih (hm.adopt hr outside opens scanned.1)
      (hi.adopt hm outside scanned.1 scanned.2 (hadv opens scanned.1))
  | isSealed outside opens scanned =>
    exact (hi.adopt hm outside scanned.1 scanned.2 (hadv opens scanned.1)).close _ _
  | closes => exact hi.close _ _
  | steps outside idle stays _ ih =>
    exact ih (hm.step outside ⟨idle, stays⟩) (hi.step hm outside)

theorem scanSpan_indentsBelow {table : RuleTable} (hr : table.Regular) {options : ScanOptions}
    {levels : Nat} {o : Opening} {r : Scanned} (h : scanSpan table options levels o = .ok r) :
    o.IndentsBelow table r.span := by
  suffices hboth : o.Sound table r ∧ o.IndentsBelow table r.span from hboth.2
  refine scanSpan_induction (motive := fun q s => q.Sound table s ∧ q.IndentsBelow table s.span)
    (fun o opened rest r ht hl hreads => ?_) h
  have hm := Opening.Midway.begin ht hl
  exact ⟨(hreads.mono fun _ _ hs => hs.1).sound hr hm,
    hreads.indentsBelow hr hm (Opening.Indented.begin opened hl)⟩

/-- In a scanned tree every child has the indentation that is in force where it starts. -/
theorem scan_indents {options : ScanOptions} {source front t : Text} {tree s : Span}
    (h : scan options source = .ok tree) (hs : s ∈ tree.preorder) (hsource : source = front ++ t)
    (hstart : s.start = Text.byteLength front) :
    (s.opening t).Indents Rule.standard s.children := by
  obtain ⟨consumed, h⟩ := RuleTable.scan_eq_ok_iff.mp h
  obtain ⟨front', t', ht', hstart', hindents⟩ :=
    scanSpan_indentsBelow Rule.standard_regular h s hs
  simp only [Nat.zero_add] at ht' hstart'
  obtain ⟨-, rfl⟩ := Text.append_inj_of_byteLength (hsource.symm.trans ht') (by omega)
  exact hindents

end DocCoverage
