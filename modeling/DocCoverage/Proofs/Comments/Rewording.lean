import DocCoverage.Proofs.Comments.Crossing

/-!
# Scanning a file with a comment reworded

Up to the comment the scans of a file and of the file with other text in the comment differ only
where a class attribute looks into the comment: behind an annotation without a value.
-/
namespace DocCoverage

/-- In a class body, behind the text `back` and at the head of a line, stands a name with an
annotation up to the comment; no span but an attribute of this name stands there. -/
structure Span.Annotates (k c : Span) (back : Text) (d : Char) (u : Text) : Prop where
  kind : k.kind = .classDef
  behind : back ≠ []
  text : ∃ rest, k.text = back.reverse ++ d :: (u ++ (c.text ++ rest))
  start : c.start = k.start + Text.byteLength (back.reverse ++ d :: u)
  name : Text.isWord d = true
  head : Cursor.atLineHead ⟨back, d :: u⟩ = true
  annotated : Rule.annotated u = true
  bare : ∀ q ∈ k.children, q.start ≤ k.start + Text.byteLength back →
    k.start + Text.byteLength back < q.stop →
      q.kind = .classAttribute ∧ q.start = k.start + Text.byteLength back

/-- The class annotates a name up to the comment. -/
def Span.AnnotatesUpTo (k c : Span) : Prop := ∃ back d u, k.Annotates c back d u

theorem Rule.classAttribute_opens (back : Text) (c : Char) (t : Text) :
    (standard .classAttribute).opens ⟨back, c :: t⟩ =
      (Text.isWord c && nonWord (back.headD '\n') && assignment t &&
        Cursor.atLineHead ⟨back, c :: t⟩) := rfl

/-- A class that is read up to some place goes on to the end of the line. -/
theorem Opening.Reading.class_stop {o : Opening} {s : Span} (h : o.Reading Rule.standard s)
    (hkind : o.kind = .classDef) {a v t : Text} {d : Char} (ht : o.text = a ++ (v ++ d :: t))
    (ha : o.start + Text.byteLength a ≤ s.stop) (hv : '\n' ∉ v) (hd : d ≠ '\n') :
    o.start + Text.byteLength (a ++ v) < s.stop := by
  by_contra hle
  cases h.ending with
  | closed e cur place behind bare idle fires stop_eq =>
    have htrail : (Rule.standard o.kind).trailing = 0 := by
      rw [hkind]
      rfl
    rw [hkind] at fires
    obtain ⟨rest, hrest⟩ := dedents_lineFeed fires
    obtain ⟨hcut, hlen⟩ := Cursor.at?_eq_some_iff.mp place
    rw [ht, hrest] at hcut
    obtain ⟨m, hm, hmid⟩ := Text.append_split_of_le hcut (by simp; omega)
    -- the line feed stands in front of `d`
    obtain ⟨n, hn, hlast⟩ := Text.append_split_of_le hmid.symm (by
      have hsum := congrArg Text.byteLength hm
      simp only [Text.byteLength_append, Text.byteLength_reverse] at hsum hle
      omega)
    cases n with
    | nil => exact hd (List.cons.inj hlast).1.symm
    | cons e n =>
      obtain ⟨rfl, -⟩ := List.cons.inj hlast
      exact hv (by simp [hn])
  | ranOut stop_eq =>
    have hlen := congrArg Text.byteLength ht
    have hsize := d.utf8Size_pos
    simp only [Text.byteLength_append, Text.byteLength_cons] at hlen hle
    omega
  | decorated kind =>
    rw [hkind] at kind
    cases kind

/-- The rewording changes nothing that the span sees. -/
structure Rewording.Allows (x : Rewording) (s : Span) : Prop where
  fits : x.Fits s
  lookahead : s.AnnotatesUpTo x.comment →
    Rule.assignsLater x.new = Rule.assignsLater x.comment.text

namespace Rewording

variable (x : Rewording)

/-- In front of the comment nothing else depends on its text. -/
theorem closes_eq (k : SpanKind) (indent : Nat) (back : Text) (c : Char) (u : Text) :
    (Rule.standard k).ending.closes indent ⟨back, c :: (u ++ (x.new ++ x.behind))⟩ =
      (Rule.standard k).ending.closes indent
        ⟨back, c :: (u ++ (x.comment.text ++ x.behind))⟩ := by
  obtain ⟨t, ht⟩ := x.head
  obtain ⟨t', ht'⟩ := x.new_head
  rw [ht, ht']
  exact Rule.closes_localTo (Or.inr rfl) k indent back c u _ _

theorem trailing_le {k : SpanKind} {indent : Nat} {back : Text} {c : Char} {u : Text}
    (h : (Rule.standard k).ending.closes indent
      ⟨back, c :: (u ++ (x.comment.text ++ x.behind))⟩ = true) :
    (Rule.standard k).trailing ≤ Text.byteLength (c :: u) := by
  obtain ⟨t, ht⟩ := x.head
  rw [ht] at h
  exact Rule.trailing_le_of_closes (u := c :: u) (Or.inr rfl) h

theorem leadingSpaces_eq (u : Text) :
    leadingSpaces (u ++ (x.new ++ x.behind)) =
      leadingSpaces (u ++ (x.comment.text ++ x.behind)) := by
  obtain ⟨t, ht⟩ := x.head
  obtain ⟨t', ht'⟩ := x.new_head
  rw [ht, ht']
  exact Rule.leadingSpaces_localTo (Or.inr rfl) u _ _

end Rewording

section

variable {x : Rewording} {options : ScanOptions} {levels : Nat} {o : Opening} {w u : Text}
  {p : Progress} {c : Char} {r : Scanned}

/-- A class attribute that could open in front of the comment makes its class annotate up to it. -/
theorem Reads.annotates (hb : o.Reaches x w)
    (hm : o.Midway Rule.standard p (c :: (u ++ (x.comment.text ++ x.behind))))
    (outside : ¬ p.pos < p.resumeAt) (hread : o.Reading Rule.standard r.span)
    (hfit : x.Fits r.span) (hkind : o.kind = .classDef)
    (honly : ∀ j, RuleTable.dispatch Rule.standard (Rule.standard o.kind)
      ⟨p.back, c :: (u ++ (x.comment.text ++ x.behind))⟩ = some j → j = .classAttribute)
    (hname : Text.isWord c = true) (hhead : Cursor.atLineHead ⟨p.back, c :: u⟩ = true)
    (hannotated : Rule.annotated u = true)
    (h : Reads Rule.standard (fun q s => scanSpan Rule.standard options levels q = .ok s) o p
      (c :: (u ++ (x.comment.text ++ x.behind))) r) :
    r.span.Annotates x.comment p.back c u := by
  have hpos : p.pos + Text.byteLength (c :: u) = x.comment.start := hb.pos_eq (u := c :: u) hm
  have hback := hm.pos_eq
  have hstart := hread.start_eq
  have hcomment := x.start_lt_stop
  have hclass : r.span.kind = .classDef := hread.kind_eq.trans hkind
  have hover : x.comment.stop ≤ r.span.stop := by
    obtain ⟨t, ht⟩ := x.head
    have htext : o.text = p.back.reverse ++ ((c :: u) ++ '#' :: (t ++ x.behind)) := by
      rw [hm.text_eq, ht]
      rfl
    have hline : '\n' ∉ c :: u := by
      rw [List.mem_cons, not_or]
      refine ⟨?_, Rule.lineFeed_notMem_annotated hannotated⟩
      rintro rfl
      exact absurd hname (by decide)
    have hlt := hread.class_stop hkind htext
      (by rw [Text.byteLength_reverse, ← hback]; exact h.pos_le_stop) hline (by decide)
    rw [Text.byteLength_append, Text.byteLength_reverse] at hlt
    rcases hfit.cases with hle | hin | hge
    · omega
    · exact (hfit.around hin).2
    · omega
  have hbehind : p.back ≠ [] := by
    have hwidth := hm.width_le
    have hone : o.width Rule.standard = 1 := by
      rw [Opening.width, hkind]
      rfl
    intro hnil
    rw [hnil, hone] at hwidth
    exact absurd hwidth (by decide)
  refine ⟨hclass, hbehind, ?_, ?_, hname, hhead, hannotated, ?_⟩
  · obtain ⟨rest, -, htext, -⟩ := hb.text_around hread hover
    have hw : w = p.back.reverse ++ c :: u := by
      have hsplit : (p.back.reverse ++ c :: u) ++ (x.comment.text ++ x.behind) =
          w ++ (x.comment.text ++ x.behind) := by
        rw [← hb.text_eq, hm.text_eq, List.append_assoc]
        rfl
      exact (List.append_cancel_right hsplit).symm
    exact ⟨rest, by rw [htext, hw, List.append_assoc]; rfl⟩
  · rw [Text.byteLength_append, Text.byteLength_reverse]
    omega
  · intro q hq hle hlt
    rcases h.mem_children
      (fun q s hq => (scanSpan_sound Rule.standard_regular hq).reading.start_eq) q hq with
      hdone | hlater
    · have hinside := (hm.inside q hdone).2.2
      omega
    · have hqstart : q.start = r.span.start + Text.byteLength p.back := by omega
      obtain ⟨cur, k, hplace, hdispatch, hrefine⟩ := hread.opened q hq
      rw [show q.start - o.start = Text.byteLength p.back by omega, hm.place] at hplace
      obtain rfl := Option.some.inj hplace
      rw [SpanKind.refine_of_ne (by rw [hkind]; decide)] at hrefine
      exact ⟨hrefine.symm.trans (honly k hdispatch), hqstart⟩

/-- What opens in front of the comment is the same in both files. -/
theorem Reads.dispatch_reworded (hb : o.Reaches x w)
    (hm : o.Midway Rule.standard p (c :: (u ++ (x.comment.text ++ x.behind))))
    (outside : ¬ p.pos < p.resumeAt) (hread : o.Reading Rule.standard r.span)
    (hallows : x.Allows r.span)
    (h : Reads Rule.standard (fun q s => scanSpan Rule.standard options levels q = .ok s) o p
      (c :: (u ++ (x.comment.text ++ x.behind))) r) :
    RuleTable.dispatch Rule.standard (Rule.standard o.kind)
        ⟨p.back, c :: (u ++ (x.new ++ x.behind))⟩ =
      RuleTable.dispatch Rule.standard (Rule.standard o.kind)
        ⟨p.back, c :: (u ++ (x.comment.text ++ x.behind))⟩ := by
  obtain ⟨t, ht⟩ := x.head
  obtain ⟨t', ht'⟩ := x.new_head
  have hold := Rule.assignsLater_append x.behind_head x.comment.text
  have hnew := Rule.assignsLater_append x.behind_head x.new
  have hannotates := h.annotates hb hm outside hread hallows.fits
  simp only [ht, ht', List.cons_append] at hold hnew hannotates ⊢
  refine Rule.dispatch_comment fun hkind honly => ?_
  rw [Rule.classAttribute_opens, Rule.classAttribute_opens]
  cases hannotated : Rule.annotated u with
  | false => rw [Rule.assignment_of_not_annotated hannotated _ (t ++ x.behind)]; rfl
  | true =>
    by_cases hsees : Text.isWord c = true ∧ Cursor.atLineHead ⟨p.back, c :: u⟩ = true
    · have hlater := hallows.lookahead
        ⟨_, _, _, hannotates hkind (hkind ▸ honly) hsees.1 hsees.2 hannotated⟩
      rw [ht, ht'] at hlater
      rw [Rule.assignment_of_annotated hannotated, Rule.assignment_of_annotated hannotated,
        hold, hnew, hlater]
      rfl
    · have hblind : ∀ v, (Text.isWord c && Rule.nonWord (p.back.headD '\n') &&
          Rule.assignment v && Cursor.atLineHead ⟨p.back, c :: v⟩) = false := by
        intro v
        rw [Bool.eq_false_iff]
        intro hopens
        simp only [Bool.and_eq_true] at hopens
        exact hsees ⟨hopens.1.1.1, hopens.2⟩
      rw [hblind, hblind]

/-- Every span that opens in front of the comment with `levels` levels left is scanned in the
reworded file to the moved span. -/
def SpansReword (x : Rewording) (options : ScanOptions) (levels : Nat) : Prop :=
  ∀ q s w, scanSpan Rule.standard options levels q = .ok s → q.Reaches x w →
    (∀ e ∈ s.span.preorder, x.Allows e) →
      ∃ s', scanSpan Rule.standard options levels (q.reworded x) = .ok s' ∧
        s'.span = s.span.move x.move

variable {kind : SpanKind} {s : Scanned}

/-- A child that opens in front of the comment reaches it too. -/
theorem Opening.Reaches.inner (hb : o.Reaches x w)
    (hm : o.Midway Rule.standard p (c :: (u ++ (x.comment.text ++ x.behind))))
    (opens : RuleTable.dispatch Rule.standard (Rule.standard o.kind)
      ⟨p.back, c :: (u ++ (x.comment.text ++ x.behind))⟩ = some kind) :
    (o.inner p kind (c :: (u ++ (x.comment.text ++ x.behind)))).Reaches x (c :: u) where
  text_eq := rfl
  start_eq := hb.pos_eq (u := c :: u) hm
  opener_le := by
    obtain ⟨t, ht⟩ := x.head
    rw [ht] at opens
    simp only [width, Opening.inner, Rule.standard_opener_refine]
    exact Rule.opener_le_of_opens (Or.inr rfl) (RuleTable.dispatch_eq_some opens).2 _

theorem SpansReword.inner (ih : SpansReword x options levels) (hb : o.Reaches x w)
    (hm : o.Midway Rule.standard p (c :: (u ++ (x.comment.text ++ x.behind))))
    (opens : RuleTable.dispatch Rule.standard (Rule.standard o.kind)
      ⟨p.back, c :: (u ++ (x.comment.text ++ x.behind))⟩ = some kind)
    (scanned : scanSpan Rule.standard options levels
      (o.inner p kind (c :: (u ++ (x.comment.text ++ x.behind)))) = .ok s)
    (hallows : ∀ e ∈ s.span.preorder, x.Allows e) :
    ∃ s', scanSpan Rule.standard options levels
        ((o.reworded x).inner (p.reworded x) kind (c :: (u ++ (x.new ++ x.behind)))) = .ok s' ∧
      s'.span = s.span.move x.move ∧ p.handBack s = s.span.stop ∧
      (p.reworded x).handBack s' = s'.span.stop := by
  have hreaches := hb.inner hm opens
  have hf : o.kind.refine o.text kind ≠ .file :=
    SpanKind.refine_ne_file _ _ (Rule.standard_regular.dispatch_ne_file opens)
  obtain ⟨s', scanned', hspan⟩ := ih _ _ _ scanned hreaches hallows
  have hinner : (o.inner p kind (c :: (u ++ (x.comment.text ++ x.behind)))).reworded x =
      (o.reworded x).inner (p.reworded x) kind (c :: (u ++ (x.new ++ x.behind))) := by
    have htext := hreaches.reworded_text
    simp only [Opening.reworded, Opening.inner] at htext
    simp only [Opening.reworded, Opening.inner, Progress.reworded, htext, Opening.mk.injEq,
      true_and]
    exact ⟨(hb.refine_eq kind).symm, rfl⟩
  rw [hinner] at scanned'
  have hsound := scanSpan_sound Rule.standard_regular scanned
  have hsound' := scanSpan_sound Rule.standard_regular scanned'
  refine ⟨s', scanned', hspan, hsound.handBack_eq rfl hf (List.cons_ne_nil _ _),
    hsound'.handBack_eq rfl ?_ (List.cons_ne_nil _ _)⟩
  simp only [Opening.inner, hb.refine_eq kind]
  exact hf

/-- In front of the comment both runs are inside the same child. -/
theorem Opening.Midway.inside_reworded {rest : Text} (hm : o.Midway Rule.standard p rest)
    (hfits : ∀ e ∈ p.children, x.Fits e) (hpos : p.pos < x.comment.start) :
    (p.reworded x).pos < (p.reworded x).resumeAt ↔ p.pos < p.resumeAt := by
  simp only [Progress.reworded]
  by_cases inside : p.pos < p.resumeAt
  · obtain ⟨e, he, hstart, hstop⟩ := hm.inLast inside
    have hcomment := x.start_lt_stop
    rcases (hfits e he).cases with hle | hin | hge
    · rw [x.stop_of_le (by omega)]
    · have haround := ((hfits e he).around hin).2
      have hmoved := x.rigid.stop p.resumeAt (by omega)
      omega
    · omega
  · rw [x.stop_of_le (by omega)]

/-- The reworded file does what the file does, up to the end of the span. -/
theorem Reads.rewords (hexpired : options.Untimed) (ih : SpansReword x options levels)
    (hb : o.Reaches x w)
    (hm : o.Midway Rule.standard p (u ++ (x.comment.text ++ x.behind)))
    (hread : o.Reading Rule.standard r.span) (hallows : ∀ e ∈ r.span.preorder, x.Allows e)
    (h : Reads Rule.standard (fun q s => scanSpan Rule.standard options levels q = .ok s) o p
      (u ++ (x.comment.text ++ x.behind)) r) :
    ∃ r', Reads Rule.standard (fun q s => scanSpan Rule.standard options levels q = .ok s)
        (o.reworded x) (p.reworded x) (u ++ (x.new ++ x.behind)) r' ∧
      r'.span = r.span.move x.move := by
  -- on the text in front of the comment; the state of the second run is the moved one throughout
  induction u generalizing p with
  | nil => exact h.rewords_at hexpired hb hm hread fun e he => (hallows e he).fits
  | cons c u ihu =>
    rw [List.cons_append] at h hm ⊢
    have hself := hallows _ r.span.self_mem_preorder
    have hclose := hb.close_eq hread h.span_eq hself.fits
    have hpos : p.pos + Text.byteLength (c :: u) = x.comment.start := hb.pos_eq (u := c :: u) hm
    have hsize := c.utf8Size_pos
    rw [Text.byteLength_cons] at hpos
    have hchild : ∀ s : Scanned, s.span ∈ r.span.children → ∀ e ∈ s.span.preorder, x.Allows e :=
      fun s hs e he => hallows e (Span.preorder_trans he (Span.child_mem_preorder hs))
    have hchildren : ∀ e ∈ p.children, x.Fits e := fun e he =>
      (hallows e (Span.child_mem_preorder (h.children_subset e he))).fits
    have hinside := hm.inside_reworded hchildren (show p.pos < x.comment.start by omega)
    have houtside : ¬ p.pos < p.resumeAt → ¬ (p.reworded x).pos < (p.reworded x).resumeAt :=
      mt hinside.mp
    have hdispatch := fun outside => h.dispatch_reworded hb hm outside hread hself
    cases h with
    | inChild inside tail =>
      obtain ⟨r', hr', hspan⟩ := ihu (hm.skip inside) tail
      exact ⟨r', .inChild (hinside.mpr inside) hr', hspan⟩
    | @takesUp _ _ _ _ s kind outside opens scanned goesOn tail =>
      have hmem : s.span ∈ r.span.children := tail.children_subset _ List.mem_cons_self
      obtain ⟨s', scanned', hspan, hback, hback'⟩ := ih.inner hb hm opens scanned (hchild s hmem)
      have hm' := hm.adopt Rule.standard_regular outside opens
        (scanSpan_sound Rule.standard_regular scanned)
      obtain ⟨r', hr', hspan'⟩ := ihu hm' tail
      refine ⟨r', .takesUp (houtside outside) ((hdispatch outside).trans opens) scanned' ?_ ?_,
        hspan'⟩
      · simpa [Opening.sealedBy, Opening.reworded, hspan] using goesOn
      · have hadopt : (p.reworded x).adopt c s' = (p.adopt c s).reworded x := by
          simp only [Progress.adopt, Progress.reworded, Progress.skip] at hback' ⊢
          rw [hback', hback, hspan, Span.move_stop, List.map_cons]
        rw [hadopt]
        exact hr'
    | @isSealed _ _ _ s kind outside opens scanned isLast =>
      obtain ⟨s', scanned', hspan, hback, hback'⟩ :=
        ih.inner hb hm opens scanned (hchild s (List.mem_reverse.mpr List.mem_cons_self))
      refine ⟨_, .isSealed (houtside outside) ((hdispatch outside).trans opens) scanned' ?_,
        Eq.trans ?_ hclose⟩
      · simpa [Opening.sealedBy, Opening.reworded, hspan] using isLast
      · simp only [hback', hback, hspan, Span.move_stop]
        simp only [Opening.close, List.map_reverse, List.map_cons, Progress.reworded]
    | closes outside idle fires =>
      have hkind : (o.reworded x).kind = o.kind := rfl
      have htrail := x.trailing_le fires
      have hstop : x.move.stop (p.pos + (Rule.standard o.kind).trailing) =
          p.pos + (Rule.standard o.kind).trailing := x.stop_of_le (by
        rw [Text.byteLength_cons] at htrail
        omega)
      refine ⟨_, .closes (houtside outside) ((hdispatch outside).trans idle)
        ((x.closes_eq _ _ _ _ _).trans fires), Eq.trans ?_ hclose⟩
      have hmin : ∀ v, min (Rule.standard o.kind).trailing (Text.byteLength (c :: (u ++ v))) =
          (Rule.standard o.kind).trailing := by
        intro v
        rw [← List.cons_append, Text.byteLength_append]
        omega
      simp only [hkind, hmin, Opening.close, hstop, List.map_reverse, Progress.reworded]
    | steps outside idle stays tail =>
      obtain ⟨r', hr', hspan⟩ := ihu (hm.step outside ⟨idle, stays⟩) tail
      refine ⟨r', .steps (houtside outside) ((hdispatch outside).trans idle)
        ((x.closes_eq _ _ _ _ _).trans stays) ?_, hspan⟩
      have hstep : (p.reworded x).step c (u ++ (x.new ++ x.behind)) =
          (p.step c (u ++ (x.comment.text ++ x.behind))).reworded x := by
        simp only [Progress.step, Progress.reworded, x.leadingSpaces_eq]
      rw [hstep]
      exact hr'

/-- Every span that reaches the comment is scanned to the moved span. -/
theorem spansReword (hexpired : options.Untimed) : SpansReword x options levels := by
  induction levels with
  | zero =>
    intro q s w h
    simp [scanSpan] at h
  | succ levels ih =>
    intro q s w h hb hallows
    obtain ⟨opened, rest, htext, hlen, hreads⟩ := exists_reads_of_scanSpan h
    have hwidth := hb.opener_le
    simp only [Opening.width] at hwidth
    obtain ⟨u, rfl, rfl⟩ := Text.append_split_of_le (htext.symm.trans hb.text_eq) (by omega)
    have hread := (scanSpan_sound Rule.standard_regular h).reading
    obtain ⟨s', hs', hspan⟩ := hreads.rewords hexpired ih hb (.begin htext hlen) hread hallows
    refine ⟨s', ?_, hspan⟩
    have hbegin : (q.begin opened).reworded x = (q.reworded x).begin opened := by
      simp only [Progress.reworded, Opening.begin, x.stop_of_le (Nat.zero_le _), List.map_nil]
      rfl
    rw [hbegin] at hs'
    refine (scanSpan_succ_eq_ok_iff hexpired).mpr
      ⟨opened, u ++ (x.new ++ x.behind), ?_, ?_, hs'⟩
    · rw [hb.reworded_text, List.append_assoc]
    · have hopener := Rule.standard_opener q.kind (q.reworded x).text q.text
      have hsize := congrArg Text.byteLength htext
      rw [hb.reworded_text] at hopener ⊢
      have hkind : (q.reworded x).kind = q.kind := rfl
      rw [hkind, hopener]
      simp only [Text.byteLength_append] at hsize hwidth ⊢
      omega

end

end DocCoverage
