import DocCoverage.Proofs.Comments.Splice
import DocCoverage.Proofs.Scan.Openers
import DocCoverage.Proofs.Scan.Runs

/-!
# Two scans across a reworded comment

Where two scans, of a file and of the file with other text in one of its comments, come to the
comment in the same state, both take it up or pass over it inside a child, and behind it both do the
same up to the end of the span.
-/
namespace DocCoverage

/-! ## Behind the comment -/

theorem End.closes_of_escaped {e : End} {indent : Nat} {back back' t : Text}
    (h : Cursor.escaped ⟨back', t⟩ = Cursor.escaped ⟨back, t⟩) :
    e.closes indent ⟨back', t⟩ = e.closes indent ⟨back, t⟩ := by
  cases e with
  | eof | dedent | decorated => rfl
  | ahead accepts unescaped => simp only [closes, h]

/-- Backslashes are counted no further than to the start of the comment. -/
theorem Cursor.escaped_comment {t : Text} (hhead : ∃ u, t = '#' :: u)
    (heven : (t.reverse.takeWhile (· == '\\')).length % 2 = 0) (f ahead : Text) :
    Cursor.escaped ⟨t.reverse ++ f, ahead⟩ = false := by
  obtain ⟨u, rfl⟩ := hhead
  rw [List.reverse_cons, Text.takeWhile_append_cons (by decide)] at heven
  rw [escaped, List.reverse_cons, List.append_assoc]
  simp only [List.cons_append, Text.takeWhile_append_cons (p := (· == '\\')) (d := '#') (by decide)]
  simp [heven]

namespace Rewording

variable (x : Rewording)

/-- Behind its line no span sees the text of the comment. -/
theorem seesAlike (kind : SpanKind) (indent : Nat) (f : Text) {y z : Text}
    (hyz : x.behind = y ++ z) :
    RuleTable.SeesAlike Rule.standard kind indent (y.reverse ++ (x.comment.text.reverse ++ f))
      (y.reverse ++ (x.new.reverse ++ f)) z := by
  rintro w c rest rfl
  have hbehind : x.behind = (y ++ w) ++ c :: rest := by rw [hyz, List.append_assoc]
  simp only [← List.append_assoc w.reverse, ← List.reverse_append]
  generalize y ++ w = v at hbehind
  cases v with
  | nil =>
    obtain rfl : c = '\n' := by simpa [hbehind] using x.behind_head
    have hne : x.behind ≠ [] := by simp [hbehind]
    simp only [Rule.dispatch_lineFeed, true_and]
    apply End.closes_of_escaped
    rw [List.reverse_nil, List.nil_append, List.nil_append,
      Cursor.escaped_comment x.head (x.even hne),
      Cursor.escaped_comment x.new_head (x.new_even hne)]
  | cons d v =>
    obtain rfl : d = '\n' := by simpa [hbehind] using x.behind_head
    simp only [List.reverse_cons, List.append_assoc]
    exact RuleTable.SeesAlike.behind rfl rfl v.reverse [] c rest rfl

end Rewording

section

variable {x : Rewording} {options : ScanOptions} {levels : Nat} {o : Opening} {w : Text}
  {p p' : Progress} {r : Scanned}

/-- Behind the comment both runs do the same. -/
theorem Reads.rewords_behind (hexpired : options.Untimed) (hb : o.Reaches x w)
    (hread : o.Reading Rule.standard r.span) (hfit : x.Fits r.span) {y z f : Text}
    (hyz : x.behind = y ++ z)
    (hback : p.back = y.reverse ++ (x.comment.text.reverse ++ f))
    (hback' : p'.back = y.reverse ++ (x.new.reverse ++ f))
    (hp : p.Slid x.move x.comment.stop (x.comment.start + Text.byteLength x.new) [] p')
    (h : Reads Rule.standard (fun q s => scanSpan Rule.standard options levels q = .ok s) o p z
      r) :
    ∃ r', Reads Rule.standard (fun q s => scanSpan Rule.standard options levels q = .ok s)
        (o.reworded x) p' z r' ∧ r'.span = r.span.move x.move := by
  have hsees := x.seesAlike o.kind o.indent f hyz
  rw [← hback, ← hback'] at hsees
  have hkind : (o.reworded x).kind = o.kind := rfl
  obtain ⟨r', hr', hspan⟩ := Reads.slide Rule.standard_regular x.rigid
    (fun q s hq => scanSpan_slide Rule.standard_regular hexpired x.rigid hq) hkind rfl hb.refine_eq
    h hp hsees
  refine ⟨r', hr', ?_⟩
  rw [hspan, List.reverse_nil, List.nil_append, hb.close_eq hread h.span_eq hfit]

end

/-! ## The comment itself -/

namespace Rule

theorem standard_opens_number (k : SpanKind) (back t t' : Text) :
    (standard k).opens ⟨back, '#' :: t'⟩ = (standard k).opens ⟨back, '#' :: t⟩ := by
  cases k <;> rfl

theorem dispatch_number (parent : Rule) (back t t' : Text) :
    RuleTable.dispatch standard parent ⟨back, '#' :: t'⟩ =
      RuleTable.dispatch standard parent ⟨back, '#' :: t⟩ := by
  unfold RuleTable.dispatch
  simp only [standard_opens_number _ back t t']

theorem closes_number (k : SpanKind) (indent : Nat) (back t t' : Text) :
    (standard k).ending.closes indent ⟨back, '#' :: t'⟩ =
      (standard k).ending.closes indent ⟨back, '#' :: t⟩ := by
  cases k <;> rfl

end Rule

namespace Opening.Reading

variable {o : Opening} {s : Span}

theorem comment_eq (h : o.Reading Rule.standard s) (hkind : s.kind = .comment) :
    s.unterminated = false ∧ s.children = [] := by
  have ho : o.kind = .comment := h.kind_eq.symm.trans hkind
  refine ⟨?_, h.children_eq_nil (by rw [hkind]; rfl)⟩
  cases h.ending with
  | closed _ _ _ _ _ _ _ _ terminated => exact terminated
  | ranOut _ unterminated =>
    rw [unterminated, ho]
    rfl
  | decorated kind => rw [ho] at kind; cases kind

end Opening.Reading

section

variable (x : Rewording) {options : ScanOptions} {levels : Nat} {q : Opening}

theorem Rewording.scanSpan_new (hexpired : options.Untimed) (hkind : q.kind = .comment)
    (htext : q.text = x.new ++ x.behind) :
    ∃ s, scanSpan Rule.standard options (levels + 1) q = .ok s ∧ q.Covers x.new [] s := by
  obtain ⟨t, ht⟩ := x.new_head
  have hquiet : ∀ v a d b, t = a ++ d :: b →
      RuleTable.Quiet Rule.standard q.kind q.indent ⟨a.reverse ++ ['#'], d :: (b ++ v)⟩ := by
    intro v a d b hab
    have hd : (d == '\n') = false := by
      rw [beq_eq_false_iff_ne]
      rintro rfl
      exact x.new_line (by simp [ht, hab])
    rw [hkind]
    exact ⟨RuleTable.dispatch_eq_none fun _ hk => absurd hk List.not_mem_nil,
      End.closes_eq_false hd⟩
  have hopener : Text.byteLength ['#'] = (Rule.standard q.kind).opener q.text := by
    rw [hkind]
    rfl
  rw [ht]
  cases hbehind : x.behind with
  | nil =>
    have houtside : ¬ (q.begin ['#']).pos < (q.begin ['#']).resumeAt := Nat.not_lt_zero _
    obtain ⟨p, hruns⟩ : ∃ p, Runs Rule.standard options levels q (q.begin ['#']) t [] [] p :=
      exists_runs_quiet houtside (hquiet [])
    exact scanSpan_ends hexpired (by rw [htext, hbehind, ht, List.append_nil]; rfl) hopener
      (by rw [hkind]; rfl) hruns
  | cons c v =>
    obtain rfl : c = '\n' := by simpa [hbehind] using x.behind_head
    have hescaped :=
      Cursor.escaped_comment x.new_head (x.new_even (by simp [hbehind])) [] ('\n' :: v)
    rw [ht, List.append_nil, List.reverse_cons] at hescaped
    have hsplit : q.text = ['#'] ++ (t ++ ([] ++ '\n' :: v)) := by
      rw [htext, hbehind, ht]
      rfl
    have hfires : (Rule.standard q.kind).ending.closes q.indent
        ⟨t.reverse ++ ['#'].reverse, '\n' :: v⟩ = true := by
      rw [hkind]
      show (!(true && Cursor.escaped ⟨t.reverse ++ ['#'], '\n' :: v⟩) && true) = true
      rw [hescaped]
      rfl
    obtain ⟨s, hscan, hcovers⟩ := scanSpan_leaf hexpired hsplit hopener (by rw [hkind]; rfl) rfl
      (hquiet ('\n' :: v)) (Rule.dispatch_lineFeed _ _ _) hfires (by rw [hkind]; decide)
    exact ⟨s, hscan, by rwa [List.append_nil] at hcovers⟩

theorem Rewording.span_new (hopen : x.comment.unterminated = false)
    (hkind : q.kind = .comment) (hstart : q.start = x.comment.start)
    (hindent : q.indent = x.comment.indent) : q.span x.new [] = x.comment.move x.move := by
  have htext := x.text_comment
  have hmoved : x.move.start x.comment.start = x.comment.start := by
    rw [x.move_start]
    exact x.stop_of_le (Nat.le_refl _)
  have hchildren := x.children_eq
  have hcomment := x.kind_eq
  have hend := x.stop_comment
  generalize x.comment = c at *
  obtain ⟨kind, text, start, stop, indent, unterminated, children⟩ := c
  simp only at *
  simp only [Opening.span, Span.move, Span.moveAll_eq_map, hkind, hstart, hindent, htext, hmoved,
    hchildren, hcomment, hend, hopen, List.map_nil]

end

/-! ## At the comment -/

/-- The state of a span in the file with the comment reworded. -/
def Progress.reworded (x : Rewording) (p : Progress) : Progress :=
  { p with
    resumeAt := x.move.stop p.resumeAt
    children := p.children.map (Span.move x.move) }

section

variable {x : Rewording} {options : ScanOptions} {levels : Nat} {o : Opening} {w : Text}
  {p : Progress} {r : Scanned}

theorem Opening.Reaches.pos_eq (hb : o.Reaches x w) {u : Text}
    (hm : o.Midway Rule.standard p (u ++ (x.comment.text ++ x.behind))) :
    p.pos + Text.byteLength u = x.comment.start := by
  have hsplit : (p.back.reverse ++ u) ++ (x.comment.text ++ x.behind) =
      w ++ (x.comment.text ++ x.behind) := by
    rw [List.append_assoc, ← hm.text_eq, hb.text_eq]
  have hlen := congrArg Text.byteLength (List.append_cancel_right hsplit)
  have hpos := hm.pos_eq
  have hstart := hb.start_eq
  simp only [Text.byteLength_append, Text.byteLength_reverse] at hlen
  omega

/-- Where the comment stands inside a child, both runs pass over the child. -/
theorem Reads.rewords_inside (hexpired : options.Untimed) (hb : o.Reaches x w)
    (hm : o.Midway Rule.standard p (x.comment.text ++ x.behind))
    (hread : o.Reading Rule.standard r.span)
    (hfits : ∀ e ∈ r.span.preorder, x.Fits e) (inside : p.pos < p.resumeAt)
    (h : Reads Rule.standard (fun q s => scanSpan Rule.standard options levels q = .ok s) o p
      (x.comment.text ++ x.behind) r) :
    ∃ r', Reads Rule.standard (fun q s => scanSpan Rule.standard options levels q = .ok s)
        (o.reworded x) (p.reworded x) (x.new ++ x.behind) r' ∧ r'.span = r.span.move x.move := by
  have hpos : p.pos = x.comment.start := hb.pos_eq (u := []) hm
  have hend := x.stop_eq
  have hlen := x.len_pos
  obtain ⟨e, he, hestart, hestop⟩ := hm.inLast inside
  have hmem : e ∈ r.span.preorder := Span.child_mem_preorder (h.children_subset e he)
  have hover : x.comment.stop ≤ p.resumeAt := by
    rcases (hfits e hmem).cases with hle | hin | hge
    · omega
    · have := (hfits e hmem).around hin
      omega
    · omega
  -- the child ends between two characters of the text behind the comment
  obtain ⟨front, t, ht, hstart, hchild⟩ := hm.below e he e e.self_mem_preorder
  obtain ⟨after, hafter⟩ := hchild.text_eq
  simp only [Span.opening] at hafter
  have hstop := hchild.stop_eq
  have hsplit : (p.back.reverse ++ x.comment.text) ++ x.behind = (front ++ e.text) ++ after := by
    rw [List.append_assoc, ← hm.text_eq, ht, hafter, List.append_assoc]
  have hback := hm.pos_eq
  obtain ⟨y, hy, hbehind⟩ := Text.append_split_of_le hsplit (by
    simp only [Text.byteLength_append, Text.byteLength_reverse]
    omega)
  have hsum := congrArg Text.byteLength hy
  simp only [Text.byteLength_append, Text.byteLength_reverse] at hsum
  have hresume := x.rigid.stop p.resumeAt hover
  have hold : p.pos + Text.byteLength (x.comment.text ++ y) = p.resumeAt := by
    rw [Text.byteLength_append]
    omega
  have hnew : (p.reworded x).pos + Text.byteLength (x.new ++ y) = (p.reworded x).resumeAt := by
    simp only [Progress.reworded, Text.byteLength_append]
    omega
  rw [hbehind, ← List.append_assoc] at h
  have hslid : (p.past (x.comment.text ++ y)).Slid x.move x.comment.stop
      (x.comment.start + Text.byteLength x.new) [] ((p.reworded x).past (x.new ++ y)) := by
    refine ⟨?_, ?_, rfl, Or.inl ⟨hover, hresume⟩, (List.append_nil _).symm⟩
    · simp only [Progress.past]
      omega
    · simp only [Progress.past, Progress.reworded, Text.byteLength_append]
      omega
  obtain ⟨r', hr', hspan⟩ := (h.of_skips hold).rewords_behind hexpired hb hread
    (hfits _ r.span.self_mem_preorder) hbehind (f := p.back) (by simp [Progress.past])
    (by simp [Progress.past, Progress.reworded]) hslid
  refine ⟨r', ?_, hspan⟩
  rw [hbehind, ← List.append_assoc]
  exact Reads.skips hnew hr'

/-- A child that starts with the comment is the comment. -/
theorem Rewording.eq_comment {q : Opening} {s : Span} (hread : q.Reading Rule.standard s)
    (hkind : s.kind = .comment) (hstart : s.start = x.comment.start) (hlt : s.start < s.stop)
    (hfit : x.Fits s) : s = x.comment := by
  have hcomment := x.start_lt_stop
  rcases hfit.cases with hle | hin | hge
  · omega
  · rcases Span.mem_preorder.mp hin with heq | ⟨c, hc, -⟩
    · exact heq.symm
    · rw [(hread.comment_eq hkind).2] at hc
      cases hc
  · omega

/-- A span that goes on behind the first character of the comment takes the comment up. -/
theorem Reads.not_steps_at (hb : o.Reaches x w)
    (hm : o.Midway Rule.standard p (x.comment.text ++ x.behind))
    (hread : o.Reading Rule.standard r.span) (hfits : ∀ e ∈ r.span.preorder, x.Fits e)
    (outside : ¬ p.pos < p.resumeAt) {c : Char} {t rest : Text}
    (h : Reads Rule.standard (fun q s => scanSpan Rule.standard options levels q = .ok s) o
      (p.step c t) rest r) : False := by
  have hpos : p.pos = x.comment.start := hb.pos_eq (u := []) hm
  have hcomment := x.start_lt_stop
  have hsize := c.utf8Size_pos
  have hstep : (p.step c t).pos = p.pos + c.utf8Size := rfl
  have hstart := hread.start_eq
  have hreach := hb.start_eq
  have hstop := h.pos_le_stop
  rcases (hfits _ r.span.self_mem_preorder).cases with hle | hin | hge
  · omega
  · rcases Span.mem_preorder.mp hin with heq | ⟨d, hd, hin⟩
    · -- the comment itself starts behind the opener of the span
      have hopener := hb.opener_le
      have ho : o.kind = .comment := by rw [← hread.kind_eq, ← heq, x.kind_eq]
      have hwidth : o.width Rule.standard = 1 := by
        rw [Opening.width, ho]
        rfl
      rw [← heq] at hstart
      omega
    · have haround := (hfits d (Span.child_mem_preorder hd)).around hin
      rcases h.mem_children
        (fun q s hq => (scanSpan_sound Rule.standard_regular hq).reading.start_eq) d hd with
        hdone | hlater
      · have hinside := (hm.inside d hdone).2.2
        omega
      · omega
  · omega

theorem SpanKind.refine_comment (parent : SpanKind) (t : Text) :
    parent.refine t .comment = .comment := by
  rcases SpanKind.refine_eq_or parent .comment t with h | ⟨h, -⟩
  · exact h
  · cases h

/-- Where the comment opens, both runs take it up. -/
theorem Reads.rewords_comment (hexpired : options.Untimed) (hb : o.Reaches x w)
    (hm : o.Midway Rule.standard p (x.comment.text ++ x.behind))
    (hread : o.Reading Rule.standard r.span) (hfits : ∀ e ∈ r.span.preorder, x.Fits e)
    (outside : ¬ (p.reworded x).pos < (p.reworded x).resumeAt) {s : Scanned} {t rest : Text}
    (ht : x.comment.text = '#' :: t)
    (opens : RuleTable.dispatch Rule.standard (Rule.standard o.kind) ⟨p.back, '#' :: rest⟩ =
      some .comment)
    (scanned : scanSpan Rule.standard options levels
      (o.inner p .comment (x.comment.text ++ x.behind)) = .ok s)
    (tail : Reads Rule.standard (fun q s => scanSpan Rule.standard options levels q = .ok s) o
      (p.adopt '#' s) (t ++ x.behind) r) :
    ∃ r', Reads Rule.standard (fun q s => scanSpan Rule.standard options levels q = .ok s)
        (o.reworded x) (p.reworded x) (x.new ++ x.behind) r' ∧ r'.span = r.span.move x.move := by
  have hpos : p.pos = x.comment.start := hb.pos_eq (u := []) hm
  have hnumber : ('#').utf8Size = 1 := rfl
  have hend := x.stop_eq
  obtain ⟨t', ht'⟩ := x.new_head
  have hsound := scanSpan_sound Rule.standard_regular scanned
  have hinner : (o.inner p .comment (x.comment.text ++ x.behind)).kind = .comment :=
    SpanKind.refine_comment _ _
  have hkind : s.span.kind = .comment := hsound.reading.kind_eq.trans hinner
  have hstart : s.span.start = p.pos := hsound.reading.start_eq
  have hne : (o.inner p .comment (x.comment.text ++ x.behind)).text ≠ [] := by
    simp [Opening.inner, ht]
  have hlt := hsound.advances (by rw [hinner]; decide) hne
  have hback := hsound.handBack_eq rfl (by rw [hinner]; decide) hne
  have hmem : s.span ∈ r.span.children := tail.children_subset _ List.mem_cons_self
  have heq : s.span = x.comment := Rewording.eq_comment hsound.reading hkind (by omega) hlt
    (hfits _ (Span.child_mem_preorder hmem))
  cases levels with
  | zero => simp [scanSpan] at scanned
  | succ levels =>
    have hinner' : ((o.reworded x).inner (p.reworded x) .comment (x.new ++ x.behind)).kind =
        .comment := SpanKind.refine_comment _ _
    obtain ⟨s', scanned', hcovers⟩ := x.scanSpan_new hexpired hinner' rfl
    have hindent : p.lineIndent = x.comment.indent := by
      rw [← heq]
      exact hsound.reading.indent_eq.symm
    have hspan : s'.span = x.comment.move x.move := by
      rw [hcovers.span]
      exact x.span_new (heq ▸ (hsound.reading.comment_eq hkind).1) hinner' hpos hindent
    have hsound' := scanSpan_sound Rule.standard_regular scanned'
    have hback' := hsound'.handBack_eq (p := p.reworded x) rfl (by rw [hinner']; decide)
      (by simp [Opening.inner, ht'])
    rw [hspan, Span.move_stop, x.stop_comment] at hback'
    rw [heq] at hback
    have hresume : (p.adopt '#' s).resumeAt = x.comment.stop := hback
    have hresume' : ((p.reworded x).adopt '#' s').resumeAt =
        x.comment.start + Text.byteLength x.new := hback'
    have hold : (p.adopt '#' s).pos + Text.byteLength t = (p.adopt '#' s).resumeAt := by
      rw [ht, Text.byteLength_cons] at hend
      rw [hresume]
      simp only [Progress.adopt, Progress.skip]
      omega
    have hnew : ((p.reworded x).adopt '#' s').pos + Text.byteLength t' =
        ((p.reworded x).adopt '#' s').resumeAt := by
      rw [hresume', ht', Text.byteLength_cons]
      simp only [Progress.adopt, Progress.skip, Progress.reworded]
      omega
    have hslid : ((p.adopt '#' s).past t).Slid x.move x.comment.stop
        (x.comment.start + Text.byteLength x.new) []
        (((p.reworded x).adopt '#' s').past t') := by
      refine ⟨?_, ?_, rfl, Or.inl ⟨?_, ?_⟩, ?_⟩
      · exact Nat.le_of_eq (hold.trans hresume).symm
      · simp only [Progress.past, hold, hnew, hresume, hresume']
        omega
      · exact Nat.le_of_eq hresume.symm
      · simp only [Progress.past, hresume, hresume']
        omega
      · simp [Progress.past, Progress.adopt, Progress.reworded, heq, hspan]
    obtain ⟨r', hr', hspan'⟩ := (tail.of_skips hold).rewords_behind hexpired hb hread
      (hfits _ r.span.self_mem_preorder) (y := []) (z := x.behind) (f := p.back) rfl
      (by simp [Progress.past, Progress.adopt, Progress.skip, ht])
      (by simp [Progress.past, Progress.adopt, Progress.skip, Progress.reworded, ht']) hslid
    refine ⟨r', ?_, hspan'⟩
    rw [ht', List.cons_append] at scanned' ⊢
    refine .takesUp outside ((Rule.dispatch_number _ _ _ _).trans opens) scanned' ?_
      (Reads.skips hnew hr')
    rw [Opening.sealedBy, hspan, Span.move_kind, x.kind_eq]
    rfl

/-- At the comment both runs take it up, or pass over it in a child, or have come to their end. -/
theorem Reads.rewords_at (hexpired : options.Untimed) (hb : o.Reaches x w)
    (hm : o.Midway Rule.standard p (x.comment.text ++ x.behind))
    (hread : o.Reading Rule.standard r.span) (hfits : ∀ e ∈ r.span.preorder, x.Fits e)
    (h : Reads Rule.standard (fun q s => scanSpan Rule.standard options levels q = .ok s) o p
      (x.comment.text ++ x.behind) r) :
    ∃ r', Reads Rule.standard (fun q s => scanSpan Rule.standard options levels q = .ok s)
        (o.reworded x) (p.reworded x) (x.new ++ x.behind) r' ∧ r'.span = r.span.move x.move := by
  by_cases inside : p.pos < p.resumeAt
  · exact h.rewords_inside hexpired hb hm hread hfits inside
  have hpos : p.pos = x.comment.start := hb.pos_eq (u := []) hm
  have houtside : ¬ (p.reworded x).pos < (p.reworded x).resumeAt := by
    simp only [Progress.reworded, x.stop_of_le (show p.resumeAt ≤ x.comment.start by omega)]
    exact inside
  obtain ⟨t, ht⟩ := x.head
  obtain ⟨t', ht'⟩ := x.new_head
  have hclose := hb.close_eq hread h.span_eq (hfits _ r.span.self_mem_preorder)
  rw [ht, List.cons_append] at h
  cases h with
  | inChild inside' => exact absurd inside' inside
  | steps outside _ _ tail => exact (tail.not_steps_at hb hm hread hfits outside).elim
  | takesUp outside opens scanned _ tail =>
    obtain rfl := Rule.kind_of_opens_number (RuleTable.dispatch_eq_some opens).2
    rw [← List.cons_append, ← ht] at scanned
    exact tail.rewords_comment hexpired hb hm hread hfits houtside ht opens scanned
  | isSealed outside opens scanned isLast =>
    obtain rfl := Rule.kind_of_opens_number (RuleTable.dispatch_eq_some opens).2
    have hkind := (scanSpan_sound Rule.standard_regular scanned).reading.kind_eq
    simp only [Opening.inner, SpanKind.refine_comment] at hkind
    rw [Opening.sealedBy, hkind] at isLast
    cases isLast
  | closes outside idle fires =>
    have htrail : (Rule.standard o.kind).trailing = 0 :=
      Nat.le_zero.mp (Rule.trailing_le_of_closes (u := []) (Or.inr rfl) fires)
    have hstop : x.move.stop p.pos = p.pos := x.stop_of_le (Nat.le_of_eq hpos)
    rw [ht', List.cons_append]
    refine ⟨_, .closes houtside ((Rule.dispatch_number _ _ _ _).trans idle)
      ((Rule.closes_number _ _ _ _ _).trans fires), Eq.trans ?_ hclose⟩
    have hkind : (o.reworded x).kind = o.kind := rfl
    simp only [hkind, htrail, Nat.zero_min, Nat.add_zero, Opening.close, hstop, List.map_reverse,
      Progress.reworded]

end

end DocCoverage
