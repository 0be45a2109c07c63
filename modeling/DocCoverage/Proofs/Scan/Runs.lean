import DocCoverage.Proofs.Scan.Reading

/-!
# Runs over a stretch of text

`Runs` says that a span gets from one place to another over a stretch of its text and which
children it takes up on the way. Runs are put together from single characters at which nothing
happens and from children that are scanned as a whole; a run up to an end gives the scanned span.
-/
namespace DocCoverage

/-- The span `o`, with `levels` left for what opens in it, gets from `p` to `q` over the text `u`,
with `v` behind it, and takes up `spans` on the way. -/
structure Runs (table : RuleTable) (options : ScanOptions) (levels : Nat) (o : Opening)
    (p : Progress) (u v : Text) (spans : List Span) (q : Progress) : Prop where
  back : q.back = u.reverse ++ p.back
  pos : q.pos = p.pos + Text.byteLength u
  outside : ¬ q.pos < q.resumeAt
  children : q.children = spans.reverse ++ p.children
  reads : ∀ {r : Scanned},
    Reads table (fun o r => scanSpan table options levels o = .ok r) o q v r →
      Reads table (fun o r => scanSpan table options levels o = .ok r) o p (u ++ v) r

variable {table : RuleTable} {options : ScanOptions} {levels : Nat} {o : Opening}
  {p q : Progress} {u v : Text}

theorem Runs.nil (houtside : ¬ p.pos < p.resumeAt) : Runs table options levels o p [] v [] p where
  back := rfl
  pos := rfl
  outside := houtside
  children := rfl
  reads h := h

theorem Runs.trans {q' : Progress} {u' : Text} {spans spans' : List Span}
    (h : Runs table options levels o p u (u' ++ v) spans q)
    (h' : Runs table options levels o q u' v spans' q') :
    Runs table options levels o p (u ++ u') v (spans ++ spans') q' where
  back := by rw [h'.back, h.back, List.reverse_append, List.append_assoc]
  pos := by rw [h'.pos, h.pos, Text.byteLength_append, Nat.add_assoc]
  outside := h'.outside
  children := by rw [h'.children, h.children, List.reverse_append, List.append_assoc]
  reads hr := by
    rw [List.append_assoc]
    exact h.reads (h'.reads hr)

theorem Runs.step {c : Char} (houtside : ¬ p.pos < p.resumeAt)
    (hquiet : table.Quiet o.kind o.indent ⟨p.back, c :: v⟩) :
    Runs table options levels o p [c] v [] (p.step c v) where
  back := rfl
  pos := rfl
  outside := by
    show ¬ p.pos + c.utf8Size < p.resumeAt
    omega
  children := rfl
  reads hr := .steps houtside hquiet.1 hquiet.2 hr

theorem exists_runs_quiet (houtside : ¬ p.pos < p.resumeAt)
    (hquiet : ∀ a c b, u = a ++ c :: b →
      table.Quiet o.kind o.indent ⟨a.reverse ++ p.back, c :: (b ++ v)⟩) :
    ∃ q, Runs table options levels o p u v [] q := by
  induction u generalizing p with
  | nil => exact ⟨p, .nil houtside⟩
  | cons c u ih =>
    have hstep : Runs table options levels o p [c] (u ++ v) [] (p.step c (u ++ v)) :=
      .step houtside (hquiet [] c u rfl)
    obtain ⟨q, hq⟩ := ih hstep.outside fun a d b hu => by
      have hd := hquiet (c :: a) d b (by rw [hu]; rfl)
      rwa [List.reverse_cons, List.append_assoc] at hd
    exact ⟨q, hstep.trans hq⟩

/-- Characters at which nothing happens, whatever stands around them. -/
theorem exists_runs_chars (houtside : ¬ p.pos < p.resumeAt)
    (hquiet : ∀ c ∈ u, ∀ back t, table.Quiet o.kind o.indent ⟨back, c :: t⟩) :
    ∃ q, Runs table options levels o p u v [] q := by
  apply exists_runs_quiet houtside
  rintro a c b rfl
  exact hquiet c (by simp) _ _

/-- The place behind a text that is passed over inside a child. -/
def Progress.past (p : Progress) (u : Text) : Progress :=
  { p with back := u.reverse ++ p.back, pos := p.pos + Text.byteLength u }

theorem Progress.past_cons (p : Progress) (c : Char) (u : Text) :
    p.past (c :: u) = (p.skip c).past u := by
  simp only [past, skip, List.reverse_cons, List.append_assoc, List.singleton_append,
    Text.byteLength_cons, Nat.add_assoc]

theorem Reads.skips {child : Opening → Scanned → Prop} {r : Scanned}
    (hend : p.pos + Text.byteLength u = p.resumeAt) (tail : Reads table child o (p.past u) v r) :
    Reads table child o p (u ++ v) r := by
  induction u generalizing p with
  | nil => exact tail
  | cons c u ih =>
    rw [Text.byteLength_cons] at hend
    have hsize := c.utf8Size_pos
    refine .inChild (by omega) (ih (p := p.skip c) ?_ ?_)
    · show p.pos + c.utf8Size + Text.byteLength u = p.resumeAt
      omega
    · rwa [Progress.past_cons] at tail

/-- A run passes over the rest of a child. -/
theorem Reads.of_skips {child : Opening → Scanned → Prop} {r : Scanned}
    (hend : p.pos + Text.byteLength u = p.resumeAt)
    (h : Reads table child o p (u ++ v) r) : Reads table child o (p.past u) v r := by
  induction u generalizing p with
  | nil => exact h
  | cons c u ih =>
    rw [Text.byteLength_cons] at hend
    have hsize := c.utf8Size_pos
    rw [Progress.past_cons]
    cases h with
    | inChild inside tail =>
      refine ih ?_ tail
      simp only [Progress.skip]
      omega
    | takesUp outside | isSealed outside | closes outside | steps outside => omega

namespace Opening

/-- The span that covers a text and was closed behind it. -/
def span (o : Opening) (w : Text) (spans : List Span) : Span :=
  ⟨o.kind, w, o.start, o.start + Text.byteLength w, o.indent, false, spans⟩

/-- The scanned span covers a text, and the enclosing span resumes no later than behind it. -/
structure Covers (o : Opening) (w : Text) (spans : List Span) (r : Scanned) : Prop where
  span : r.span = o.span w spans
  consumed : r.consumed ≤ Text.byteLength w

theorem inner_kind (h : o.kind ≠ .decorator) (k : SpanKind) (t : Text) : (o.inner p k t).kind = k :=
  SpanKind.refine_of_ne h _ _

theorem inner_span (h : o.kind ≠ .decorator) (k : SpanKind) (t w : Text) (spans : List Span) :
    (o.inner p k t).span w spans =
      ⟨k, w, p.pos, p.pos + Text.byteLength w, p.lineIndent, false, spans⟩ := by
  rw [span, inner_kind h]
  rfl

end Opening

theorem exists_runs_child {w : Text} {spans : List Span} {s : Scanned} {kind : SpanKind}
    (houtside : ¬ p.pos < p.resumeAt) (hw : w ≠ [])
    (hopens : table.dispatch (table o.kind) ⟨p.back, w ++ v⟩ = some kind)
    (hscan : scanSpan table options levels (o.inner p kind (w ++ v)) = .ok s)
    (hs : (o.inner p kind (w ++ v)).Covers w spans s)
    (hplain : (table o.kind).ending.isDecorated = false) :
    ∃ q, Runs table options levels o p w v [(o.inner p kind (w ++ v)).span w spans] q := by
  obtain ⟨c, w, rfl⟩ := List.exists_cons_of_ne_nil hw
  have hlen := Text.byteLength_cons c w
  have hsize := c.utf8Size_pos
  have hconsumed := hs.consumed
  have hstop : s.span.stop = p.pos + Text.byteLength (c :: w) := by
    rw [hs.span]
    rfl
  have hback : p.handBack s = p.pos + Text.byteLength (c :: w) := by
    rw [Progress.handBack, hstop]
    omega
  refine ⟨(p.adopt c s).past w, ?_, ?_, ?_, ?_, ?_⟩
  · show w.reverse ++ c :: p.back = (c :: w).reverse ++ p.back
    simp
  · show p.pos + c.utf8Size + Text.byteLength w = p.pos + Text.byteLength (c :: w)
    omega
  · show ¬ p.pos + c.utf8Size + Text.byteLength w < p.handBack s
    omega
  · show s.span :: p.children = _
    rw [hs.span]
    rfl
  · intro r hr
    refine .takesUp houtside hopens hscan ?_ (Reads.skips ?_ hr)
    · rw [Opening.sealedBy, hplain, Bool.and_false]
    · show p.pos + c.utf8Size + Text.byteLength w = p.handBack s
      omega

section Scanned

variable {opened : Text} {spans : List Span}

/-- A run from behind the opener up to the end of the span. -/
theorem scanSpan_closes (hexpired : options.Untimed) {c : Char} {w rest : Text}
    (htext : o.text = opened ++ (u ++ (w ++ rest)))
    (hopened : Text.byteLength opened = (table o.kind).opener o.text)
    (hw : Text.byteLength w = (table o.kind).trailing)
    (hrest : w ++ rest = c :: v)
    (hruns : Runs table options levels o (o.begin opened) u
      (c :: v) spans q)
    (hidle : table.dispatch (table o.kind) ⟨u.reverse ++ opened.reverse, c :: v⟩ = none)
    (hfires : (table o.kind).ending.closes o.indent ⟨u.reverse ++ opened.reverse, c :: v⟩ = true)
    (hresume : (table o.kind).resume ≤ (table o.kind).trailing) :
    ∃ r, scanSpan table options (levels + 1) o = .ok r ∧
      o.Covers (opened ++ (u ++ w)) spans r := by
  have hback : q.back = u.reverse ++ opened.reverse := hruns.back
  have hpos : q.pos = o.start + Text.byteLength opened + Text.byteLength u := hruns.pos
  have hchildren : q.children.reverse = spans := by
    rw [hruns.children]
    simp [Opening.begin]
  have hmin : min (table o.kind).trailing (Text.byteLength (c :: v)) =
      Text.byteLength w := by
    rw [← hrest, Text.byteLength_append]
    omega
  rw [← hback] at hidle hfires
  have hopener : Text.byteLength opened =
      min ((table o.kind).opener o.text) (Text.byteLength o.text) := by
    rw [← hopened, htext, Text.byteLength_append]
    omega
  refine ⟨_, (scanSpan_succ_eq_ok_iff hexpired).mpr ⟨opened, u ++ (c :: v), by rw [htext, hrest],
    hopener, hruns.reads (.closes hruns.outside hidle hfires)⟩, ?_, ?_⟩
  · have hstop : q.pos + Text.byteLength w - o.start =
        Text.byteLength (opened ++ (u ++ w)) := by
      simp only [Text.byteLength_append]
      omega
    have hcut : Text.slice o.text 0 (q.pos + Text.byteLength w - o.start) =
        opened ++ (u ++ w) := by
      rw [htext, ← List.append_assoc u, ← List.append_assoc opened]
      exact Text.slice_front hstop.symm
    simp only [hmin, Opening.close, hcut, hchildren, Opening.span, Span.mk.injEq, true_and,
      and_true]
    omega
  · simp only [Text.byteLength_append]
    omega

/-- A span without children, where nothing happens before its end. -/
theorem scanSpan_leaf (hexpired : options.Untimed) {c : Char} {w rest : Text}
    (htext : o.text = opened ++ (u ++ (w ++ rest)))
    (hopened : Text.byteLength opened = (table o.kind).opener o.text)
    (hw : Text.byteLength w = (table o.kind).trailing)
    (hrest : w ++ rest = c :: v)
    (hquiet : ∀ a d b, u = a ++ d :: b →
      table.Quiet o.kind o.indent ⟨a.reverse ++ opened.reverse, d :: (b ++ (c :: v))⟩)
    (hidle : table.dispatch (table o.kind) ⟨u.reverse ++ opened.reverse, c :: v⟩ = none)
    (hfires : (table o.kind).ending.closes o.indent ⟨u.reverse ++ opened.reverse, c :: v⟩ = true)
    (hresume : (table o.kind).resume ≤ (table o.kind).trailing) :
    ∃ r, scanSpan table options (levels + 1) o = .ok r ∧
      o.Covers (opened ++ (u ++ w)) [] r := by
  have houtside : ¬ (o.begin opened).pos < (o.begin opened).resumeAt := Nat.not_lt_zero _
  obtain ⟨q, hruns⟩ := exists_runs_quiet houtside hquiet
  exact scanSpan_closes hexpired htext hopened hw hrest hruns hidle hfires hresume

/-- A run from behind the opener up to the end of the file, for a span that need not be closed. -/
theorem scanSpan_ends (hexpired : options.Untimed) (htext : o.text = opened ++ u)
    (hopened : Text.byteLength opened = (table o.kind).opener o.text)
    (hshut : (table o.kind).mustClose = false)
    (hruns : Runs table options levels o (o.begin opened) u
      [] spans q) :
    ∃ r, scanSpan table options (levels + 1) o = .ok r ∧ o.Covers (opened ++ u) spans r := by
  have hpos : q.pos = o.start + Text.byteLength opened + Text.byteLength u := hruns.pos
  have hchildren : q.children.reverse = spans := by
    rw [hruns.children]
    simp [Opening.begin]
  have hopener : Text.byteLength opened =
      min ((table o.kind).opener o.text) (Text.byteLength o.text) := by
    rw [← hopened, htext, Text.byteLength_append]
    omega
  have hreads := hruns.reads (.atEnd q)
  rw [List.append_nil] at hreads
  refine ⟨_, (scanSpan_succ_eq_ok_iff hexpired).mpr ⟨opened, u, htext, hopener, hreads⟩, ?_, ?_⟩
  · have hstop : q.pos - o.start = Text.byteLength (opened ++ u) := by
      rw [Text.byteLength_append]
      omega
    have hcut : Text.slice o.text 0 (q.pos - o.start) = opened ++ u := by
      have hfront := Text.slice_front (a := opened ++ u) (b := []) hstop.symm
      rw [List.append_nil] at hfront
      rw [htext, hfront]
    simp only [Opening.close, hcut, hchildren, hshut, Opening.span, Span.mk.injEq, true_and,
      and_true]
    omega
  · simp only [Text.byteLength_append]
    omega

end Scanned

/-! ## What opens and ends at a character -/

/-- A property of the characters of a text is checked one character after the other. -/
theorem Text.forall_of_all {t : Text} {holds : Char → Prop} [DecidablePred holds]
    (h : t.all (fun c => decide (holds c)) = true) : ∀ c ∈ t, holds c :=
  fun c hc => of_decide_eq_true (List.all_eq_true.mp h c hc)

theorem Cursor.escaped_eq_false {cur : Cursor} (h : '\\' ∉ cur.back) : cur.escaped = false := by
  obtain ⟨back, ahead⟩ := cur
  cases back with
  | nil => rfl
  | cons c back =>
    have hc : (c == '\\') = false := by
      rw [beq_eq_false_iff_ne]
      rintro rfl
      exact h List.mem_cons_self
    simp [Cursor.escaped, hc]

namespace End

variable {accepts : Text → Bool} {unescaped : Bool} {indent : Nat} {cur : Cursor}

theorem closes_eq_false (h : accepts cur.ahead = false) :
    (End.ahead accepts unescaped).closes indent cur = false := by
  rw [closes, h, Bool.and_false]

theorem closes_eq_true (hslash : '\\' ∉ cur.back) (h : accepts cur.ahead = true) :
    (End.ahead accepts unescaped).closes indent cur = true := by
  rw [closes, h, Cursor.escaped_eq_false hslash, Bool.and_false]
  rfl

end End

namespace RuleTable

variable {parent : Rule} {cur : Cursor}

theorem dispatch_eq_none (h : ∀ k ∈ parent.children, (table k).opens cur = false) :
    table.dispatch parent cur = none := by
  cases hd : table.dispatch parent cur with
  | none => rfl
  | some k =>
    obtain ⟨hk, hopens⟩ := dispatch_eq_some hd
    rw [h k hk] at hopens
    cases hopens

/-- A kind opens when it could open and no kind before it in the priority could. -/
theorem dispatch_of_first {k : SpanKind} (hk : k ∈ parent.children)
    (hopens : (table k).opens cur = true)
    (hfirst : ∀ j ∈ SpanKind.priority.takeWhile (· != k), j ∈ parent.children →
      (table j).opens cur = false) : table.dispatch parent cur = some k := by
  have hsplit : SpanKind.priority = SpanKind.priority.takeWhile (· != k) ++
      k :: (SpanKind.priority.dropWhile (· != k)).tail := by
    cases k <;> decide
  rw [dispatch, hsplit, List.find?_append, List.find?_eq_none.mpr, Option.none_or,
    List.find?_cons_of_pos]
  · simp [hk, hopens]
  · intro j hj hcontra
    rw [Bool.and_eq_true, List.contains_iff_mem] at hcontra
    rw [hfirst j hj hcontra.1] at hcontra
    cases hcontra.2

/-- No child of a kind starts with the character. -/
def dull (table : RuleTable) (kind : SpanKind) (c : Char) : Bool :=
  (table kind).children.all fun k => !(table k).current c

end RuleTable

theorem Rule.opens_cons {r : Rule} {back t : Text} {c : Char}
    (h : r.opens ⟨back, c :: t⟩ = true) :
    r.current c = true ∧ r.before (back.headD '\n') = true ∧ r.ahead t = true := by
  simp only [Rule.opens, Bool.and_eq_true] at h
  exact ⟨h.1.1.1, h.1.1.2, h.1.2⟩

/-- Only comments open at a number sign. -/
theorem Rule.kind_of_opens_number {k : SpanKind} {back t : Text}
    (h : (standard k).opens ⟨back, '#' :: t⟩ = true) : k = .comment := by
  have hcurrent := (opens_cons h).1
  revert hcurrent
  cases k <;> decide

theorem RuleTable.dispatch_of_dull {kind : SpanKind} {c : Char} (h : table.dull kind c = true)
    (back t : Text) : table.dispatch (table kind) ⟨back, c :: t⟩ = none := by
  apply dispatch_eq_none
  intro k hk
  rw [Bool.eq_false_iff]
  intro hopens
  have hcurrent := List.all_eq_true.mp h k hk
  rw [(Rule.opens_cons hopens).1] at hcurrent
  cases hcurrent

/-- A file that starts with a definition which reaches to its end holds nothing else. -/
theorem scan_definition (hexpired : options.Untimed) {kind : SpanKind} {t : Text}
    {spans : List Span} (ht : t ≠ [])
    (hopens : RuleTable.dispatch Rule.standard (Rule.standard .file) ⟨[], t⟩ = some kind)
    (hscan : ∃ r, scanSpan Rule.standard options options.maxDepth ⟨kind, 0, 0, t⟩ = .ok r ∧
      Opening.Covers ⟨kind, 0, 0, t⟩ t spans r) :
    scan options t = .ok ⟨.file, t, 0, Text.byteLength t, 0, false,
      [⟨kind, t, 0, Text.byteLength t, 0, false, spans⟩]⟩ := by
  let o : Opening := ⟨.file, 0, 0, t⟩
  have houtside : ¬ (o.begin []).pos < (o.begin []).resumeAt := Nat.not_lt_zero _
  have hinner : o.inner (o.begin []) kind (t ++ []) = ⟨kind, 0, 0, t⟩ := by
    rw [Opening.inner, SpanKind.refine_of_ne (show SpanKind.file ≠ .decorator by decide),
      List.append_nil]
    rfl
  obtain ⟨s, hs, hcovers⟩ := hscan
  rw [← hinner] at hs hcovers
  obtain ⟨q, hruns⟩ := exists_runs_child (v := []) houtside ht
    (by rw [List.append_nil]; exact hopens) hs hcovers rfl
  have hparts : o.text = [] ++ t := rfl
  obtain ⟨r, hr, hfile⟩ := scanSpan_ends hexpired hparts rfl rfl hruns
  have hspan : r.span = ⟨.file, t, 0, Text.byteLength t, 0, false,
      [⟨kind, t, 0, Text.byteLength t, 0, false, spans⟩]⟩ := by
    rw [hfile.span, hinner]
    simp [Opening.span, o]
  exact RuleTable.scan_eq_ok_iff.mpr ⟨r.consumed, by rw [← hspan]; exact hr⟩

end DocCoverage
