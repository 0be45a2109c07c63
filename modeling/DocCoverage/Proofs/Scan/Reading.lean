import DocCoverage.Proofs.Scan.Regular
import DocCoverage.Proofs.Span.Tree

/-!
# The declarative reading of a span

A span that was opened on a text has a reading of that text: its children stand in order behind
the opener, each at a character where its kind opens, and at every other character up to the end
of the span nothing opens and nothing ends. The span ends where its end fires for the first time,
or with the text, or with the definition below a decorator. Every span of a scanned tree has such
a reading; nothing is said here about scans that fail.
-/
namespace DocCoverage

namespace Cursor

/-- The place behind `n` bytes of a text, if it lies between two characters. -/
def at? (t : Text) (n : Nat) : Option Cursor :=
  (Text.splitAt? n t).map fun (a, b) => ⟨a.reverse, b⟩

theorem at?_eq_some_iff {t : Text} {n : Nat} {cur : Cursor} :
    at? t n = some cur ↔ t = cur.back.reverse ++ cur.ahead ∧ Text.byteLength cur.back = n := by
  obtain ⟨back, ahead⟩ := cur
  simp only [at?, Option.map_eq_some_iff, Prod.exists, Text.splitAt?_eq_some_iff, mk.injEq]
  constructor
  · rintro ⟨a, b, ⟨rfl, rfl⟩, rfl, rfl⟩
    simp
  · rintro ⟨rfl, rfl⟩
    exact ⟨back.reverse, ahead, by simp, by simp⟩

/-- No place lies inside a character. -/
theorem eq_of_at? {t back rest : Text} {c : Char} {n : Nat} {cur : Cursor}
    (ht : t = back.reverse ++ c :: rest) (hcur : at? t n = some cur)
    (hle : Text.byteLength back ≤ n) (hlt : n < Text.byteLength (c :: back)) :
    cur = ⟨back, c :: rest⟩ := by
  obtain ⟨ht', hlen⟩ := at?_eq_some_iff.mp hcur
  obtain ⟨m, hm, hr⟩ := Text.append_split_of_le (ht.symm.trans ht') (by simp; omega)
  obtain ⟨back', ahead⟩ := cur
  cases m with
  | nil =>
    have hback : back' = back := by simpa using congrArg List.reverse hm
    rw [hback, hr]
    rfl
  | cons d m =>
    obtain ⟨rfl, -⟩ := List.cons.inj hr
    have hsize := congrArg Text.byteLength hm
    simp only [Text.byteLength_append, Text.byteLength_reverse, Text.byteLength_cons] at hsize hlt
    simp only at hlen
    omega

end Cursor

/-- The offset of the file lies inside one of the spans. -/
def Covered (spans : List Span) (pos : Nat) : Prop := ∃ c ∈ spans, c.start ≤ pos ∧ pos < c.stop

/-- At a place of a span no child opens and the span does not end. -/
def RuleTable.Quiet (table : RuleTable) (kind : SpanKind) (indent : Nat) (cur : Cursor) : Prop :=
  table.dispatch (table kind) cur = none ∧ (table kind).ending.closes indent cur = false

/-- The opening of a span on the text of the file from its start on. -/
def Span.opening (s : Span) (t : Text) : Opening := ⟨s.kind, s.start, s.indent, t⟩

namespace Opening

variable (table : RuleTable) (o : Opening)

def width : Nat := (table o.kind).opener o.text

/-- From the opener up to `stop` bytes, nothing happens at a character outside the children. -/
def QuietUpTo (children : List Span) (stop : Nat) : Prop :=
  ∀ n cur, o.width table ≤ n → n < stop → Cursor.at? o.text n = some cur → cur.ahead ≠ [] →
    ¬ Covered children (o.start + n) → table.Quiet o.kind o.indent cur

/-- A child's kind is the one that opens where the child starts. -/
def Opens (c : Span) : Prop :=
  ∃ cur k, Cursor.at? o.text (c.start - o.start) = some cur ∧
    table.dispatch (table o.kind) cur = some k ∧ o.kind.refine o.text k = c.kind

/-- The three ways in which a span ends. -/
inductive Ends (s : Span) : Prop
  /-- At a place outside the children, where its end fires. -/
  | closed (e : Nat) (cur : Cursor) (place : Cursor.at? o.text e = some cur)
      (behind : o.width table ≤ e) (bare : ¬ Covered s.children (o.start + e))
      (idle : table.dispatch (table o.kind) cur = none)
      (fires : (table o.kind).ending.closes o.indent cur = true)
      (stop_eq : s.stop = o.start + e + (table o.kind).trailing)
      (terminated : s.unterminated = false) (quiet : o.QuietUpTo table s.children e)
  /-- With the text of the file. -/
  | ranOut (stop_eq : s.stop = o.start + Text.byteLength o.text)
      (unterminated : s.unterminated = (table o.kind).mustClose)
      (quiet : o.QuietUpTo table s.children (Text.byteLength o.text))
  /-- With the definition below a decorator. -/
  | decorated (kind : o.kind = .decorator) (last : Span)
      (isLast : s.children.getLast? = some last) (definition : last.kind.isDefinition = true)
      (stop_eq : s.stop = last.stop) (terminated : s.unterminated = false)
      (quiet : o.QuietUpTo table s.children (s.stop - o.start))

/-- A finished span reads the text on which it was opened. -/
structure Reading (s : Span) : Prop where
  kind_eq : s.kind = o.kind
  start_eq : s.start = o.start
  indent_eq : s.indent = o.indent
  text_eq : ∃ after, o.text = s.text ++ after
  stop_eq : s.stop = s.start + Text.byteLength s.text
  inside : ∀ c ∈ s.children,
    o.start + o.width table ≤ c.start ∧ c.start < c.stop ∧ c.stop ≤ s.stop
  ordered : s.children.Pairwise fun c d => c.stop ≤ d.start
  opened : ∀ c ∈ s.children, o.Opens table c
  ending : o.Ends table s

/-- The span starts inside the opened text and reads that text from there on. -/
def Placed (s : Span) : Prop :=
  ∃ front t, o.text = front ++ t ∧ s.start = o.start + Text.byteLength front ∧
    (s.opening t).Reading table s

/-- A result that can be handed to the enclosing span. -/
structure Sound (r : Scanned) : Prop where
  reading : o.Reading table r.span
  consumed_le : r.consumed ≤ r.span.stop - r.span.start
  advances : o.kind ≠ .file → o.text ≠ [] → r.span.start < r.span.stop
  below : ∀ d ∈ r.span.descendants, o.Placed table d

end Opening

namespace Opening

variable {table : RuleTable} {o : Opening} {p : Progress} {c : Char} {rest : Text}

theorem QuietUpTo.of_subset {children children' : List Span} {stop : Nat}
    (h : o.QuietUpTo table children stop) (hc : ∀ s ∈ children, s ∈ children') :
    o.QuietUpTo table children' stop := by
  intro n cur hn hs hcur ha hbare
  apply h n cur hn hs hcur ha
  rintro ⟨s, hs, hcov⟩
  exact hbare ⟨s, hc s hs, hcov⟩

/-- One character further: only the place before that character is new. -/
theorem QuietUpTo.snoc {children : List Span} {back : Text}
    (h : o.QuietUpTo table children (Text.byteLength back))
    (ht : o.text = back.reverse ++ c :: rest)
    (hq : ¬ Covered children (o.start + Text.byteLength back) →
      table.Quiet o.kind o.indent ⟨back, c :: rest⟩) :
    o.QuietUpTo table children (Text.byteLength (c :: back)) := by
  intro n cur hn hs hcur ha hbare
  by_cases hlt : n < Text.byteLength back
  · exact h n cur hn hlt hcur ha hbare
  · obtain rfl := Cursor.eq_of_at? ht hcur (Nat.le_of_not_lt hlt) hs
    obtain rfl := (Cursor.at?_eq_some_iff.mp hcur).2
    exact hq hbare

/-- The state of a span in the middle of its text. -/
structure Midway (table : RuleTable) (o : Opening) (p : Progress) (rest : Text) : Prop where
  text_eq : o.text = p.back.reverse ++ rest
  pos_eq : p.pos = o.start + Text.byteLength p.back
  behind : min (o.width table) (Text.byteLength o.text) ≤ Text.byteLength p.back
  inside : ∀ s ∈ p.children,
    o.start + o.width table ≤ s.start ∧ s.start < s.stop ∧ s.stop ≤ p.resumeAt
  inLast : p.pos < p.resumeAt → ∃ s ∈ p.children, s.start ≤ p.pos ∧ s.stop = p.resumeAt
  resume_le : p.resumeAt ≤ o.start + Text.byteLength o.text
  ordered : p.children.Pairwise fun s d => d.stop ≤ s.start
  opened : ∀ s ∈ p.children, o.Opens table s
  below : ∀ s ∈ p.children, ∀ d ∈ s.preorder, o.Placed table d
  quiet : o.QuietUpTo table p.children (Text.byteLength p.back)

namespace Midway

theorem begin {opened : Text} (ht : o.text = opened ++ rest)
    (hl : Text.byteLength opened = min (o.width table) (Text.byteLength o.text)) :
    o.Midway table (o.begin opened) rest where
  text_eq := by simpa [Opening.begin] using ht
  pos_eq := by simp [Opening.begin]
  behind := by simp [Opening.begin, hl]
  inside := by simp [Opening.begin]
  inLast := by simp [Opening.begin]
  resume_le := by simp [Opening.begin]
  ordered := List.Pairwise.nil
  opened := by simp [Opening.begin]
  below := by simp [Opening.begin]
  quiet := by
    intro n cur hn hs _ _ _
    simp only [Opening.begin, Text.byteLength_reverse, hl] at hs
    omega

theorem bare (h : o.Midway table p rest) (outside : ¬ p.pos < p.resumeAt) :
    ¬ Covered p.children (o.start + Text.byteLength p.back) := by
  rintro ⟨s, hs, -, hlt⟩
  have := (h.inside s hs).2.2
  rw [← h.pos_eq] at hlt
  omega

theorem place (h : o.Midway table p rest) :
    Cursor.at? o.text (Text.byteLength p.back) = some ⟨p.back, rest⟩ :=
  Cursor.at?_eq_some_iff.mpr ⟨h.text_eq, rfl⟩

theorem skip (h : o.Midway table p (c :: rest)) (inside : p.pos < p.resumeAt) :
    o.Midway table (p.skip c) rest where
  text_eq := by simp [Progress.skip, h.text_eq]
  pos_eq := by simp [Progress.skip, h.pos_eq]; omega
  behind := by have := h.behind; simp [Progress.skip] at *; omega
  inside := h.inside
  inLast _ := by
    obtain ⟨s, hs, hle, hstop⟩ := h.inLast inside
    exact ⟨s, hs, by simp [Progress.skip]; omega, hstop⟩
  resume_le := h.resume_le
  ordered := h.ordered
  opened := h.opened
  below := h.below
  quiet := by
    refine h.quiet.snoc h.text_eq fun hbare => absurd ?_ hbare
    obtain ⟨s, hs, hle, hstop⟩ := h.inLast inside
    rw [← h.pos_eq]
    exact ⟨s, hs, hle, by omega⟩

theorem step (h : o.Midway table p (c :: rest)) (outside : ¬ p.pos < p.resumeAt)
    (hq : table.Quiet o.kind o.indent ⟨p.back, c :: rest⟩) :
    o.Midway table (p.step c rest) rest where
  text_eq := by simp [Progress.step, h.text_eq]
  pos_eq := by simp [Progress.step, h.pos_eq]; omega
  behind := by have := h.behind; simp [Progress.step] at *; omega
  inside := h.inside
  inLast hlt := by simp only [Progress.step] at hlt; omega
  resume_le := h.resume_le
  ordered := h.ordered
  opened := h.opened
  below := h.below
  quiet := h.quiet.snoc h.text_eq fun _ => hq

end Midway

theorem Reading.opening_eq {s : Span} (h : o.Reading table s) : s.opening o.text = o := by
  obtain ⟨kind, start, indent, text⟩ := o
  simp only [Span.opening, h.kind_eq, h.start_eq, h.indent_eq]

theorem Reading.placed {s : Span} (h : o.Reading table s) : o.Placed table s :=
  ⟨[], o.text, rfl, by simp [h.start_eq], by rwa [h.opening_eq]⟩

theorem Reading.children_eq_nil {s : Span} (h : o.Reading table s)
    (hleaf : (table s.kind).children = []) : s.children = [] := by
  refine List.eq_nil_iff_forall_not_mem.mpr fun c hc => ?_
  obtain ⟨_, k, -, hdispatch, -⟩ := h.opened c hc
  have hlegal := (RuleTable.dispatch_eq_some hdispatch).1
  rw [← h.kind_eq, hleaf] at hlegal
  cases hlegal

/-- A span without a closing delimiter is quiet up to its end. -/
theorem Reading.quiet {s : Span} (h : o.Reading table s) (htrail : (table o.kind).trailing = 0) :
    o.QuietUpTo table s.children (s.stop - o.start) := by
  cases h.ending with
  | closed e _ _ _ _ _ _ stop_eq _ quiet =>
    rw [stop_eq, htrail, Nat.add_zero, Nat.add_sub_cancel_left]
    exact quiet
  | ranOut stop_eq _ quiet =>
    rw [stop_eq, Nat.add_sub_cancel_left]
    exact quiet
  | decorated _ _ _ _ _ _ quiet => exact quiet

/-- What stands behind a span without a closing delimiter. -/
theorem Reading.behind_cases {s : Span} {t : Text}
    (h : (s.opening (s.text ++ t)).Reading table s) (htrail : (table s.kind).trailing = 0) :
    t = [] ∨ (table s.kind).ending.closes s.indent ⟨s.text.reverse, t⟩ = true ∨
      s.kind = .decorator ∧ ∃ c ∈ s.children, c.kind.isDefinition = true ∧ c.stop = s.stop := by
  have hstop := h.stop_eq
  cases h.ending with
  | closed e cur place behind bare idle fires stop_eq =>
    obtain ⟨back, ahead⟩ := cur
    obtain ⟨hcut, hlen⟩ := Cursor.at?_eq_some_iff.mp place
    simp only [Span.opening, htrail] at hcut hlen fires stop_eq
    obtain ⟨hback, rfl⟩ := Text.append_inj_of_byteLength hcut (by simp; omega)
    rw [hback, List.reverse_reverse]
    exact Or.inr (Or.inl fires)
  | ranOut stop_eq =>
    simp only [Span.opening, Text.byteLength_append] at stop_eq
    exact Or.inl (Text.byteLength_eq_zero.mp (by omega))
  | decorated kind last isLast definition stop_eq =>
    exact Or.inr (Or.inr ⟨kind, last, List.mem_of_getLast? isLast, definition, stop_eq.symm⟩)

/-- What stands in the text of a child stands in the text of its parent. -/
theorem Placed.outer {q : Opening} {d : Span} (h : q.Placed table d) {front : Text}
    (ht : o.text = front ++ q.text) (hs : q.start = o.start + Text.byteLength front) :
    o.Placed table d := by
  obtain ⟨front', t, ht', hs', hd⟩ := h
  refine ⟨front ++ front', t, by simp [ht, ht'], ?_, hd⟩
  rw [hs', hs, Text.byteLength_append, Nat.add_assoc]

/-- An enclosing span resumes exactly at the end of its child. -/
theorem Sound.handBack_eq {q : Opening} {s : Scanned} (hs : q.Sound table s)
    (hp : q.start = p.pos) (hk : q.kind ≠ .file) (ht : q.text ≠ []) :
    p.handBack s = s.span.stop := by
  have hc := hs.consumed_le
  have ha := hs.advances hk ht
  have hst := hs.reading.start_eq
  unfold Progress.handBack
  omega

namespace Midway

theorem width_le (h : o.Midway table p (c :: rest)) :
    o.width table ≤ Text.byteLength p.back := by
  have hb := h.behind
  have hc := c.utf8Size_pos
  rw [h.text_eq] at hb
  simp only [Text.byteLength_append, Text.byteLength_reverse, Text.byteLength_cons] at hb
  omega

variable {kind : SpanKind} {s : Scanned}

theorem inner_handBack (hr : table.Regular)
    (opens : table.dispatch (table o.kind) ⟨p.back, c :: rest⟩ = some kind)
    (hs : (o.inner p kind (c :: rest)).Sound table s) : p.handBack s = s.span.stop :=
  hs.handBack_eq rfl (SpanKind.refine_ne_file _ _ (hr.dispatch_ne_file opens)) (by simp [inner])

theorem adopt (hr : table.Regular) (h : o.Midway table p (c :: rest))
    (outside : ¬ p.pos < p.resumeAt)
    (opens : table.dispatch (table o.kind) ⟨p.back, c :: rest⟩ = some kind)
    (hs : (o.inner p kind (c :: rest)).Sound table s) : o.Midway table (p.adopt c s) rest := by
  have hback := inner_handBack hr opens hs
  have hstart : s.span.start = p.pos := hs.reading.start_eq
  have hadv : s.span.start < s.span.stop :=
    hs.advances (SpanKind.refine_ne_file _ _ (hr.dispatch_ne_file opens)) (by simp [inner])
  have hpos := h.pos_eq
  have hwidth := h.width_le
  have hcov : Covered (s.span :: p.children) (o.start + Text.byteLength p.back) :=
    ⟨s.span, by simp, by omega, by omega⟩
  constructor
  · simp [Progress.adopt, Progress.skip, h.text_eq]
  · simp [Progress.adopt, Progress.skip, hpos]
    omega
  · have := h.behind
    simp [Progress.adopt, Progress.skip] at *
    omega
  · simp only [Progress.adopt, List.mem_cons, forall_eq_or_imp, hback]
    refine ⟨by omega, fun d hd => ?_⟩
    have := h.inside d hd
    omega
  · intro _
    exact ⟨s.span, by simp [Progress.adopt], by simp [Progress.adopt, Progress.skip]; omega,
      hback.symm⟩
  · obtain ⟨after, hafter⟩ := hs.reading.text_eq
    have hlen := congrArg Text.byteLength hafter
    have hstop := hs.reading.stop_eq
    simp only [inner, Text.byteLength_append, Text.byteLength_cons] at hlen
    simp only [Progress.adopt, hback, h.text_eq, Text.byteLength_append, Text.byteLength_reverse,
      Text.byteLength_cons]
    omega
  · simp only [Progress.adopt, List.pairwise_cons]
    refine ⟨fun d hd => ?_, h.ordered⟩
    have := (h.inside d hd).2.2
    omega
  · simp only [Progress.adopt, List.mem_cons, forall_eq_or_imp]
    refine ⟨⟨⟨p.back, c :: rest⟩, kind, ?_, opens, hs.reading.kind_eq.symm⟩, h.opened⟩
    rw [show s.span.start - o.start = Text.byteLength p.back by omega]
    exact h.place
  · simp only [Progress.adopt, List.mem_cons, forall_eq_or_imp]
    refine ⟨fun d hd => ?_, h.below⟩
    have hd' : (o.inner p kind (c :: rest)).Placed table d := by
      rcases List.mem_cons.mp hd with rfl | hd
      · exact hs.reading.placed
      · exact hs.below d hd
    exact hd'.outer h.text_eq (by simp [inner, hpos])
  · refine (h.quiet.of_subset fun d hd => ?_).snoc h.text_eq fun hbare => absurd hcov hbare
    exact List.mem_cons_of_mem _ hd

theorem close (h : o.Midway table p rest) {a b : Text} (stop : Nat) (flag : Bool)
    (hab : rest = a ++ b) (hstop : stop = p.pos + Text.byteLength a) (hle : p.resumeAt ≤ stop)
    (ending : o.Ends table (o.close stop flag p.children.reverse)) :
    o.Reading table (o.close stop flag p.children.reverse) := by
  have htext : o.text = (p.back.reverse ++ a) ++ b := by rw [h.text_eq, hab, List.append_assoc]
  have hlen : Text.byteLength (p.back.reverse ++ a) = stop - o.start := by
    have := h.pos_eq
    simp
    omega
  have hslice : (o.close stop flag p.children.reverse).text = p.back.reverse ++ a := by
    simp only [Opening.close]
    rw [htext]
    exact Text.slice_front hlen
  constructor
  · rfl
  · rfl
  · rfl
  · exact ⟨b, by rw [hslice, htext]⟩
  · rw [hslice, hlen]
    have := h.pos_eq
    simp only [Opening.close]
    omega
  · intro s hs
    have := h.inside s (List.mem_reverse.mp hs)
    simp only [Opening.close]
    omega
  · simpa [Opening.close, List.pairwise_reverse] using h.ordered
  · intro s hs
    exact h.opened s (List.mem_reverse.mp hs)
  · exact ending

theorem quiet_reverse (h : o.Midway table p rest) :
    o.QuietUpTo table p.children.reverse (Text.byteLength p.back) :=
  h.quiet.of_subset fun _ hs => List.mem_reverse.mpr hs

theorem bare_reverse (h : o.Midway table p rest) (outside : ¬ p.pos < p.resumeAt) :
    ¬ Covered p.children.reverse (o.start + Text.byteLength p.back) := by
  rintro ⟨s, hs, hcov⟩
  exact h.bare outside ⟨s, List.mem_reverse.mp hs, hcov⟩

theorem sound (hr : table.Regular) (h : o.Midway table p rest) {stop consumed : Nat} {flag : Bool}
    (hread : o.Reading table (o.close stop flag p.children.reverse)) (hpos : p.pos ≤ stop)
    (hc : consumed ≤ stop - o.start) :
    o.Sound table ⟨o.close stop flag p.children.reverse, consumed⟩ where
  reading := hread
  consumed_le := hc
  advances hk ht := by
    have hw := hr.opener_pos o.kind o.text hk
    have hl := Text.byteLength_pos ht
    have hb := h.behind
    have hp := h.pos_eq
    simp only [width, Opening.close] at *
    omega
  below d hd := by
    obtain ⟨s, hs, hd⟩ := Span.mem_descendants.mp hd
    exact h.below s (List.mem_reverse.mp hs) d hd

theorem sound_atEnd (hr : table.Regular) (h : o.Midway table p []) :
    o.Sound table
      ⟨o.close p.pos (table o.kind).mustClose p.children.reverse, p.pos - o.start⟩ := by
  have hlen : Text.byteLength o.text = Text.byteLength p.back := by simp [h.text_eq]
  have hpos := h.pos_eq
  have hres := h.resume_le
  have hread := h.close (a := []) p.pos (table o.kind).mustClose rfl rfl (by omega)
    (.ranOut (by simp [Opening.close]; omega) rfl (by rw [hlen]; exact h.quiet_reverse))
  exact h.sound hr hread (Nat.le_refl _) (Nat.le_refl _)

theorem sound_sealed (hr : table.Regular) {kind : SpanKind} {s : Scanned}
    (h : o.Midway table p (c :: rest)) (outside : ¬ p.pos < p.resumeAt)
    (opens : table.dispatch (table o.kind) ⟨p.back, c :: rest⟩ = some kind)
    (hs : (o.inner p kind (c :: rest)).Sound table s) (isLast : o.sealedBy table s.span = true) :
    o.Sound table ⟨o.close (p.handBack s) false (s.span :: p.children).reverse,
      p.handBack s - o.start⟩ := by
  have h' := h.adopt hr outside opens hs
  have hback := inner_handBack hr opens hs
  have hstart : s.span.start = p.pos := hs.reading.start_eq
  have hadv : s.span.start < s.span.stop :=
    hs.advances (SpanKind.refine_ne_file _ _ (hr.dispatch_ne_file opens)) (by simp [inner])
  have hstop := hs.reading.stop_eq
  obtain ⟨after, hafter⟩ := hs.reading.text_eq
  obtain ⟨a, ha⟩ : ∃ a, s.span.text = c :: a := by
    cases hst : s.span.text with
    | nil =>
      rw [hst] at hstop
      simp at hstop
      omega
    | cons d a =>
      rw [hst] at hafter
      simp only [inner, List.cons_append, List.cons.injEq] at hafter
      exact ⟨a, by rw [← hafter.1]⟩
  have hrest : rest = a ++ after := by
    rw [ha] at hafter
    simpa [inner] using hafter
  rw [ha, Text.byteLength_cons] at hstop
  have hpos : (p.adopt c s).pos = p.pos + c.utf8Size := rfl
  simp only [sealedBy, Bool.and_eq_true] at isLast
  have hquiet : o.QuietUpTo table (s.span :: p.children).reverse (p.handBack s - o.start) := by
    intro n cur hn hlt hcur hah hbare
    -- behind the start of the sealing child every place is covered by it
    have hlow : n < Text.byteLength p.back := by
      by_contra hge
      have := h.pos_eq
      exact hbare ⟨s.span, by simp, by omega, by omega⟩
    exact h.quiet_reverse.of_subset (fun d hd => by simp at hd ⊢; exact Or.inl hd) n cur hn hlow
      hcur hah hbare
  have hread := h'.close (p.handBack s) false hrest (by omega)
    (by simp [Progress.adopt])
    (.decorated (hr.decorated_only _ isLast.2) s.span (by simp [Opening.close, Progress.adopt])
      isLast.1 hback rfl hquiet)
  exact h'.sound hr hread (by omega) (Nat.le_refl _)

theorem sound_closes (hr : table.Regular) (h : o.Midway table p (c :: rest))
    (outside : ¬ p.pos < p.resumeAt)
    (idle : table.dispatch (table o.kind) ⟨p.back, c :: rest⟩ = none)
    (fires : (table o.kind).ending.closes o.indent ⟨p.back, c :: rest⟩ = true) :
    o.Sound table
      ⟨o.close (p.pos + min (table o.kind).trailing (Text.byteLength (c :: rest))) false
          p.children.reverse,
        ((p.pos - o.start : Nat) + (table o.kind).resume).toNat⟩ := by
  obtain ⟨a, b, hab, hal⟩ := hr.cut o.kind o.indent _ fires
  have hab : c :: rest = a ++ b := hab
  have hmin : min (table o.kind).trailing (Text.byteLength (c :: rest)) = (table o.kind).trailing :=
    Nat.min_eq_left (by rw [hab, Text.byteLength_append]; omega)
  have hres := hr.resume_le o.kind
  have hpos := h.pos_eq
  rw [hmin]
  have hread := h.close (p.pos + (table o.kind).trailing) false hab (by omega)
    (by omega)
    (.closed _ _ h.place h.width_le (h.bare_reverse outside) idle fires
      (by simp only [Opening.close]; omega) rfl h.quiet_reverse)
  exact h.sound hr hread (by omega) (by omega)

end Midway

end Opening

/-- Every run from the middle of a text ends in a sound result. -/
theorem Reads.sound {table : RuleTable} (hr : table.Regular) {o : Opening} {p : Progress}
    {t : Text} {r : Scanned} (h : Reads table (fun q s => q.Sound table s) o p t r)
    (hm : o.Midway table p t) : o.Sound table r := by
  induction h with
  | atEnd p => exact hm.sound_atEnd hr
  | inChild inside _ ih => exact ih (hm.skip inside)
  | takesUp outside opens scanned _ _ ih => exact ih (hm.adopt hr outside opens scanned)
  | isSealed outside opens scanned isLast =>
    exact hm.sound_sealed hr outside opens scanned isLast
  | closes outside idle fires => exact hm.sound_closes hr outside idle fires
  | steps outside idle stays _ ih => exact ih (hm.step outside ⟨idle, stays⟩)

theorem scanSpan_sound {table : RuleTable} (hr : table.Regular) {options : ScanOptions}
    {levels : Nat} {o : Opening} {r : Scanned}
    (h : scanSpan table options levels o = .ok r) : o.Sound table r :=
  scanSpan_induction (motive := fun q s => q.Sound table s)
    (fun _ _ _ _ ht hl hreads => hreads.sound hr (Opening.Midway.begin ht hl)) h

/-- Every span of a scanned tree reads the source from its start on. -/
theorem RuleTable.Regular.scan_placed {table : RuleTable} (hr : table.Regular)
    {options : ScanOptions} {source : Text} {tree : Span}
    (h : table.scan options source = .ok tree) :
    ∀ s ∈ tree.preorder, (⟨.file, 0, 0, source⟩ : Opening).Placed table s := by
  obtain ⟨consumed, h⟩ := RuleTable.scan_eq_ok_iff.mp h
  have hs := scanSpan_sound hr h
  intro s hmem
  rcases List.mem_cons.mp hmem with rfl | hd
  · exact hs.reading.placed
  · exact hs.below s hd

/-- In a scanned tree every child stands where its kind opens, every span ends in one of the three
ways, and no legal opening and no end is passed over before that. -/
theorem scan_reads {options : ScanOptions} {source : Text} {tree s : Span}
    (h : scan options source = .ok tree) (hs : s ∈ tree.preorder) :
    ∃ front t, source = front ++ t ∧ s.start = Text.byteLength front ∧
      (∀ c ∈ s.children, (s.opening t).Opens Rule.standard c) ∧
      (s.opening t).Ends Rule.standard s := by
  obtain ⟨front, t, ht, hstart, hread⟩ := Rule.standard_regular.scan_placed h s hs
  exact ⟨front, t, ht, by simpa using hstart, hread.opened, hread.ending⟩

/-- A decorator that is sealed with its method. -/
theorem scan_reads_decorator : ∃ tree s,
    scan {} "class A:\n  @property\n  def f(self):\n    pass\n" = .ok tree ∧
    s ∈ tree.preorder ∧ s.kind = .decorator ∧
    ∃ front t, ("class A:\n  @property\n  def f(self):\n    pass\n" : Text) = front ++ t ∧
      s.start = Text.byteLength front ∧ (∀ c ∈ s.children, (s.opening t).Opens Rule.standard c) ∧
      (s.opening t).Ends Rule.standard s := by
  have h : (scan {} "class A:\n  @property\n  def f(self):\n    pass\n").toOption.any
      (fun tree => tree.preorder.any (·.kind == .decorator)) = true := by decide +kernel
  obtain ⟨tree, htree, hany⟩ := scan_ok_of_any h
  obtain ⟨s, hs, hkind⟩ := List.any_eq_true.mp hany
  exact ⟨tree, s, htree, hs, eq_of_beq hkind, scan_reads htree hs⟩

end DocCoverage
