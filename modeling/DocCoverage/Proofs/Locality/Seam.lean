import DocCoverage.Proofs.Locality.Ends
import DocCoverage.Proofs.Locality.Shift

/-!
# The seam between two files

A file that ends with a line feed is scanned together with a second text behind it. Up to the
last line feed both scans do the same. There every definition that is still open closes, one
character earlier than at the end of its own file, and the file goes on with the second text. Only
the spans of the first file that are settled at its end are treated, and a second text that starts
a new line of code.
-/
namespace DocCoverage

/-- What ended at `n` ends one character earlier; that character is a line feed. -/
def Move.clip (n : Nat) : Move where
  start := id
  stop e := if e = n then n - 1 else e
  text e t := if e = n then t.dropLast else t

namespace Move

@[simp] theorem clip_start (n e : Nat) : (clip n).start e = e := rfl

@[simp] theorem clip_stop_self (n : Nat) : (clip n).stop n = n - 1 := if_pos rfl

theorem clip_stop_of_ne {n e : Nat} (h : e ≠ n) : (clip n).stop e = e := if_neg h

@[simp] theorem clip_text_self (n : Nat) (t : Text) : (clip n).text n t = t.dropLast := if_pos rfl

theorem clip_text_of_ne {n e : Nat} (h : e ≠ n) (t : Text) : (clip n).text e t = t := if_neg h

end Move

/-- The text is a line of code at the left margin. -/
def Text.StartsCode (t : Text) : Prop :=
  ∃ d rest, t = d :: rest ∧ d ≠ ' ' ∧ d ≠ '\n' ∧ d ≠ '#'

namespace Opening

/-- The same opening in a longer file. -/
def extend (t : Text) (o : Opening) : Opening := { o with text := o.text ++ t }

/-- The file ends at offset `n`, behind a line feed that the opener does not reach. -/
structure Borders (n : Nat) (o : Opening) : Prop where
  stop_eq : o.start + Text.byteLength o.text = n
  text_eq : ∃ w, o.text = w ++ ['\n'] ∧ o.width Rule.standard ≤ Text.byteLength w

variable {n : Nat} {o : Opening} {t : Text}

/-- A span closed in the longer file is the clipped span. -/
theorem Borders.close_clip (hb : o.Borders n) {a b : Text} (hab : o.text = a ++ b) {stop : Nat}
    (hstop : stop = o.start + Text.byteLength a) (flag : Bool) (children : List Span) :
    (o.extend t).close ((Move.clip n).stop stop) flag (children.map (Span.move (.clip n))) =
      (o.close stop flag children).move (.clip n) := by
  obtain ⟨w, hw, -⟩ := hb.text_eq
  have hnl : ('\n').utf8Size = 1 := rfl
  have hn := hb.stop_eq
  have hlen := congrArg Text.byteLength hw
  rw [Text.byteLength_append, Text.byteLength_cons, Text.byteLength_nil, hnl] at hlen
  have hfull : Text.slice o.text 0 (stop - o.start) = a := by
    rw [hab]
    exact Text.slice_front (by omega)
  have htext : Text.slice (o.text ++ t) 0 ((Move.clip n).stop stop - o.start) =
      (Move.clip n).text stop a := by
    by_cases he : stop = n
    · have ha : a = w ++ ['\n'] := by
        have hsplit : a ++ b = o.text ++ [] := by rw [List.append_nil, hab]
        rw [(Text.append_inj_of_byteLength hsplit (by omega)).1, hw]
      rw [he, Move.clip_stop_self, Move.clip_text_self, ha, List.dropLast_concat, hw,
        List.append_assoc]
      exact Text.slice_front (by omega)
    · rw [Move.clip_stop_of_ne he, Move.clip_text_of_ne he, hab, List.append_assoc]
      exact Text.slice_front (by omega)
  simp only [close, extend, Span.move, Span.moveAll_eq_map, hfull, htext]
  rfl

theorem Borders.refine_extend (hb : o.Borders n) (k : SpanKind) :
    o.kind.refine (o.text ++ t) k = o.kind.refine o.text k := by
  obtain ⟨w, hw, -⟩ := hb.text_eq
  have hstart : Text.startsWith (w ++ '\n' :: t) "@classmethod" =
      Text.startsWith (w ++ ['\n']) "@classmethod" :=
    Text.startsWith_localTo (by decide) w t []
  simp only [SpanKind.refine, hw, List.append_assoc, List.cons_append, List.nil_append, hstart]

variable {p : Progress} {c : Char} {u : Text} {kind : SpanKind}

theorem Borders.pos_lt (hb : o.Borders n) {rest : Text} (hm : o.Midway Rule.standard p rest) :
    p.pos + Text.byteLength rest = n := by
  have hn := hb.stop_eq
  have hpos := hm.pos_eq
  rw [hm.text_eq, Text.byteLength_append, Text.byteLength_reverse] at hn
  omega

theorem Borders.inner (hb : o.Borders n) (hm : o.Midway Rule.standard p (c :: (u ++ ['\n'])))
    (opens : RuleTable.dispatch Rule.standard (Rule.standard o.kind)
      ⟨p.back, c :: (u ++ ['\n'])⟩ = some kind) :
    (o.inner p kind (c :: (u ++ ['\n']))).Borders n where
  stop_eq := hb.pos_lt hm
  text_eq := by
    refine ⟨c :: u, rfl, ?_⟩
    simp only [width, Opening.inner, Rule.standard_opener_refine]
    exact Rule.opener_le_of_opens (Or.inl rfl) (RuleTable.dispatch_eq_some opens).2 _

end Opening

namespace Progress

/-- The state of a span in the longer file. -/
def clip (n : Nat) (p : Progress) : Progress :=
  { p with
    resumeAt := (Move.clip n).stop p.resumeAt
    children := p.children.map (Span.move (.clip n)) }

variable {n : Nat} {p : Progress}

theorem clip_inside_iff (h : p.pos + 1 < n) :
    (p.clip n).pos < (p.clip n).resumeAt ↔ p.pos < p.resumeAt := by
  simp only [clip, Move.clip]
  split <;> omega

theorem clip_outside (h : ¬ p.pos < p.resumeAt) : ¬ (p.clip n).pos < (p.clip n).resumeAt := by
  simp only [clip, Move.clip]
  split <;> omega

theorem clip_adopt {s s' : Scanned} (c : Char) (hs : p.handBack s = s.span.stop)
    (hs' : (p.clip n).handBack s' = s'.span.stop) (hspan : s'.span = s.span.move (.clip n)) :
    (p.clip n).adopt c s' = (p.adopt c s).clip n := by
  simp only [adopt, hs, hs']
  simp [clip, skip, hspan]

theorem clip_step (c : Char) (u t : Text) :
    (p.clip n).step c (u ++ '\n' :: t) = (p.step c (u ++ ['\n'])).clip n := by
  simp only [step, clip, Rule.leadingSpaces_localTo (Or.inl rfl) u t []]

end Progress

/-- How a span of the first file, read from the state `p` on, goes on in the longer file: it ends
before the last line feed, or it comes to the last line feed in a state from which the rest of the
longer file is still to be read. -/
inductive Crossing (child : Opening → Scanned → Prop) (n : Nat) (t : Text) (o : Opening)
    (p : Progress) (u : Text) (r : Scanned) : Prop
  | before (r' : Scanned)
      (run : Reads Rule.standard child (o.extend t) (p.clip n) (u ++ '\n' :: t) r')
      (span_eq : r'.span = r.span.move (.clip n))
  | atSeam (q : Progress) (midway : o.Midway Rule.standard q ['\n'])
      (plain : ∀ c ∈ q.children, o.sealedBy Rule.standard c = false)
      (span_eq : r.span = o.close n (Rule.standard o.kind).mustClose q.children.reverse)
      (run : ∀ r', Reads Rule.standard child (o.extend t) (q.clip n) ('\n' :: t) r' →
        Reads Rule.standard child (o.extend t) (p.clip n) (u ++ '\n' :: t) r')

section

variable {child : Opening → Scanned → Prop} {n : Nat} {t : Text} {o : Opening} {p p₁ : Progress}
  {c : Char} {u : Text} {r : Scanned}

theorem Crossing.cons (h : Crossing child n t o p₁ u r)
    (hstep : ∀ r', Reads Rule.standard child (o.extend t) (p₁.clip n) (u ++ '\n' :: t) r' →
      Reads Rule.standard child (o.extend t) (p.clip n) (c :: (u ++ '\n' :: t)) r') :
    Crossing child n t o p (c :: u) r := by
  cases h with
  | before r' run span_eq => exact .before r' (hstep r' run) span_eq
  | atSeam q midway plain span_eq run =>
    exact .atSeam q midway plain span_eq fun r' hr' => hstep r' (run r' hr')

/-- A span that closes at the line feed of its file closes there in the longer file. -/
theorem Rule.closes_last {k : SpanKind} {indent : Nat} {back : Text}
    (h : (standard k).ending.closes indent ⟨back, ['\n']⟩ = true) :
    (standard k).ending.closes indent ⟨back, '\n' :: t⟩ = true := by
  cases k with
  | singleDocstring | doubleDocstring =>
    have hw : word [_, _, _] ['\n'] = true := accepts_of_closes h
    exact absurd hw (by decide)
  | function | method | classMethod | classDef | decorator => cases h
  | _ => exact h

/-- A span that closes before the last line feed closes in the longer file at the same place. -/
theorem Opening.Borders.close_before (hb : o.Borders n) {x : Text}
    (hm : o.Midway Rule.standard p (x ++ ['\n']))
    (fires : (Rule.standard o.kind).ending.closes o.indent ⟨p.back, x ++ ['\n']⟩ = true) :
    (o.extend t).close
        (p.pos + min (Rule.standard o.kind).trailing (Text.byteLength (x ++ '\n' :: t))) false
        (p.clip n).children.reverse =
      (o.close (p.pos + min (Rule.standard o.kind).trailing (Text.byteLength (x ++ ['\n']))) false
        p.children.reverse).move (.clip n) := by
  have htrail := Rule.trailing_le_of_closes (t := []) (Or.inl rfl) fires
  have hpos := hb.pos_lt hm
  have hstart := hm.pos_eq
  obtain ⟨a, b, hab, hal⟩ := Rule.standard_regular.cut _ _ _ fires
  have hab : x ++ ['\n'] = a ++ b := hab
  have hnl : ('\n').utf8Size = 1 := rfl
  simp only [Text.byteLength_append, Text.byteLength_cons, Text.byteLength_nil, hnl] at hpos ⊢
  rw [Nat.min_eq_left (by omega), Nat.min_eq_left (by omega)]
  have htext : o.text = (p.back.reverse ++ a) ++ b := by
    rw [hm.text_eq, hab, List.append_assoc]
  have hsum : p.pos + (Rule.standard o.kind).trailing =
      o.start + Text.byteLength (p.back.reverse ++ a) := by
    simp
    omega
  have hclose := hb.close_clip (t := t) htext hsum false p.children.reverse
  have hstop : (Move.clip n).stop (p.pos + (Rule.standard o.kind).trailing) =
      p.pos + (Rule.standard o.kind).trailing :=
    Move.clip_stop_of_ne (by omega)
  rw [hstop] at hclose
  rw [← hclose]
  simp [Progress.clip]

/-- A span that ends with a child ends in the longer file with the clipped child. -/
theorem Opening.Borders.close_behind (hb : o.Borders n) {x : Text} {kind : SpanKind} {d : Span}
    (hm : o.Midway Rule.standard p x) (hread : (o.inner p kind x).Reading Rule.standard d)
    (unterminated : Bool) (spans : List Span) :
    (o.extend t).close ((Move.clip n).stop d.stop) unterminated
        (spans.map (Span.move (.clip n))) =
      (o.close d.stop unterminated spans).move (.clip n) := by
  obtain ⟨after, hafter⟩ := hread.text_eq
  have hafter : x = d.text ++ after := hafter
  have hstart : d.start = p.pos := hread.start_eq
  have htext : o.text = (p.back.reverse ++ d.text) ++ after := by
    rw [hm.text_eq, hafter, List.append_assoc]
  have hsum : d.stop = o.start + Text.byteLength (p.back.reverse ++ d.text) := by
    have hpos := hm.pos_eq
    have hstop := hread.stop_eq
    simp
    omega
  exact hb.close_clip htext hsum unterminated spans

/-- At the last line feed a span closes or comes to the seam. -/
theorem Reads.crosses_last (hb : o.Borders n) (hm : o.Midway Rule.standard p ['\n'])
    (hplain : ∀ c ∈ p.children, o.sealedBy Rule.standard c = false)
    (h : Reads Rule.standard child o p ['\n'] r) : Crossing child n t o p [] r := by
  have hpos := hb.pos_lt hm
  have hnl : ('\n').utf8Size = 1 := rfl
  simp only [Text.byteLength_cons, Text.byteLength_nil, hnl] at hpos
  cases h with
  | inChild inside tail =>
    cases tail
    refine .atSeam p hm hplain ?_ fun r' hr' => hr'
    simp only [Progress.skip, hnl, ← hpos]
  | takesUp _ opens =>
    rw [Rule.dispatch_lineFeed] at opens
    cases opens
  | isSealed _ opens =>
    rw [Rule.dispatch_lineFeed] at opens
    cases opens
  | closes outside idle fires =>
    exact .before _ (.closes (Progress.clip_outside outside) (Rule.dispatch_lineFeed _ _ _)
      (Rule.closes_last fires)) (hb.close_before (x := []) hm fires)
  | steps outside idle stays tail =>
    cases tail
    refine .atSeam p hm hplain ?_ fun r' hr' => hr'
    simp only [Progress.step, hnl, ← hpos]

end

section

variable {options : ScanOptions} {levels n : Nat} {t : Text}

/-- Every span that opens on the first file with `levels` levels left is scanned in the longer
file to the clipped span. -/
def SpansClip (options : ScanOptions) (levels n : Nat) (t : Text) : Prop :=
  ∀ q s, scanSpan Rule.standard options levels q = .ok s → q.kind ≠ .file → q.Borders n →
    (∀ d ∈ s.span.preorder, d.Definitive n) →
      ∃ s', scanSpan Rule.standard options levels (q.extend t) = .ok s' ∧
        s'.span = s.span.move (.clip n)

variable {o : Opening} {p : Progress} {c : Char} {u : Text} {kind : SpanKind} {r s : Scanned}

theorem SpansClip.inner (ih : SpansClip options levels n t) (hb : o.Borders n)
    (hm : o.Midway Rule.standard p (c :: (u ++ ['\n'])))
    (opens : RuleTable.dispatch Rule.standard (Rule.standard o.kind)
      ⟨p.back, c :: (u ++ ['\n'])⟩ = some kind)
    (scanned : scanSpan Rule.standard options levels (o.inner p kind (c :: (u ++ ['\n']))) = .ok s)
    (hbelow : ∀ d ∈ s.span.preorder, d.Definitive n) :
    ∃ s', scanSpan Rule.standard options levels
        ((o.extend t).inner (p.clip n) kind (c :: (u ++ '\n' :: t))) = .ok s' ∧
      s'.span = s.span.move (.clip n) ∧ p.handBack s = s.span.stop ∧
      (p.clip n).handBack s' = s'.span.stop := by
  have hf : o.kind.refine o.text kind ≠ .file :=
    SpanKind.refine_ne_file _ _ (Rule.standard_regular.dispatch_ne_file opens)
  obtain ⟨s', scanned', hspan⟩ := ih _ _ scanned hf (hb.inner hm opens) hbelow
  have hinner : (o.inner p kind (c :: (u ++ ['\n']))).extend t =
      (o.extend t).inner (p.clip n) kind (c :: (u ++ '\n' :: t)) := by
    simp [Opening.inner, Opening.extend, Progress.clip, hb.refine_extend]
  rw [hinner] at scanned'
  have hsound := scanSpan_sound Rule.standard_regular scanned
  have hsound' := scanSpan_sound Rule.standard_regular scanned'
  refine ⟨s', scanned', hspan, hsound.handBack_eq rfl hf (List.cons_ne_nil _ _),
    hsound'.handBack_eq rfl ?_ (List.cons_ne_nil _ _)⟩
  simp only [Opening.inner, Opening.extend, hb.refine_extend]
  exact hf

/-- The longer file does what the first file does, up to its last line feed. -/
theorem Reads.crosses (ih : SpansClip options levels n t) (hb : o.Borders n)
    (hm : o.Midway Rule.standard p (u ++ ['\n']))
    (hplain : ∀ c ∈ p.children, o.sealedBy Rule.standard c = false)
    (hbelow : ∀ d ∈ r.span.descendants, d.Definitive n)
    (h : Reads Rule.standard (fun q s => scanSpan Rule.standard options levels q = .ok s) o p
      (u ++ ['\n']) r) :
    Crossing (fun q s => scanSpan Rule.standard options levels q = .ok s) n t o p u r := by
  induction u generalizing p with
  | nil => exact h.crosses_last hb hm hplain
  | cons c u ihu =>
    rw [List.cons_append] at h hm
    have hchild : ∀ s : Scanned, s.span ∈ r.span.children →
        ∀ d ∈ s.span.preorder, d.Definitive n := fun s hs d hd =>
      hbelow d (Span.mem_descendants.mpr ⟨s.span, hs, hd⟩)
    have hlt : p.pos + 1 < n := by
      have hpos := hb.pos_lt hm
      have hc := c.utf8Size_pos
      have hnl : ('\n').utf8Size = 1 := rfl
      simp only [Text.byteLength_cons, Text.byteLength_append, Text.byteLength_nil, hnl] at hpos
      omega
    cases h with
    | inChild inside tail =>
      refine (ihu (hm.skip inside) hplain tail).cons fun r' hr' => ?_
      exact .inChild ((Progress.clip_inside_iff hlt).mpr inside) hr'
    | @takesUp _ _ _ _ s kind outside opens scanned goesOn tail =>
      have hmem : s.span ∈ r.span.children := tail.children_subset _ (by simp [Progress.adopt])
      obtain ⟨s', scanned', hspan, hback, hback'⟩ := ih.inner hb hm opens scanned (hchild s hmem)
      have hm' := hm.adopt Rule.standard_regular outside opens
        (scanSpan_sound Rule.standard_regular scanned)
      have hplain' : ∀ d ∈ (p.adopt c s).children, o.sealedBy Rule.standard d = false := by
        simpa [Progress.adopt, goesOn] using hplain
      refine (ihu hm' hplain' tail).cons fun r' hr' => ?_
      refine .takesUp (Progress.clip_outside outside)
        ((Rule.dispatch_line _ _ _ _ _ _).trans opens) scanned' ?_ ?_
      · simpa [Opening.sealedBy, Opening.extend, hspan] using goesOn
      · rw [Progress.clip_adopt c hback hback' hspan]
        exact hr'
    | @isSealed _ _ _ s kind outside opens scanned isLast =>
      have hmem : s.span ∈ (o.close (p.handBack s) false (s.span :: p.children).reverse).children :=
        by simp [Opening.close]
      obtain ⟨s', scanned', hspan, hback, hback'⟩ := ih.inner hb hm opens scanned (hchild s hmem)
      refine .before _ (.isSealed (Progress.clip_outside outside)
        ((Rule.dispatch_line _ _ _ _ _ _).trans opens) scanned' ?_) ?_
      · simpa [Opening.sealedBy, Opening.extend, hspan] using isLast
      · have hsound := scanSpan_sound Rule.standard_regular scanned
        have hclose := hb.close_behind (t := t) hm hsound.reading false
          (s.span :: p.children).reverse
        rw [hback, ← hclose, hback', hspan]
        simp [Progress.clip]
    | closes outside idle fires =>
      refine .before _ (.closes (Progress.clip_outside outside)
        ((Rule.dispatch_line _ _ _ _ _ _).trans idle) ?_) (hb.close_before (x := c :: u) hm fires)
      exact (Rule.closes_localTo (Or.inl rfl) _ _ _ _ _ _ _).trans fires
    | steps outside idle stays tail =>
      refine (ihu (hm.step outside ⟨idle, stays⟩) hplain tail).cons fun r' hr' => ?_
      refine .steps (Progress.clip_outside outside) ((Rule.dispatch_line _ _ _ _ _ _).trans idle)
        ((Rule.closes_localTo (Or.inl rfl) _ _ _ _ _ _ _).trans stays) ?_
      rw [Progress.clip_step]
      exact hr'

end

section

variable {options : ScanOptions} {levels n : Nat} {t : Text} {o : Opening} {p : Progress}
  {r : Scanned}

/-- The longer file reads an opened span like the first file, up to the last line feed. -/
theorem Opening.Borders.enter (hexpired : options.Untimed) (hb : o.Borders n)
    (h : scanSpan Rule.standard options (levels + 1) o = .ok r) :
    ∃ opened u, o.Midway Rule.standard (o.begin opened) (u ++ ['\n']) ∧
      Reads Rule.standard (fun q s => scanSpan Rule.standard options levels q = .ok s) o
        (o.begin opened) (u ++ ['\n']) r ∧
      ∀ r', Reads Rule.standard (fun q s => scanSpan Rule.standard options levels q = .ok s)
          (o.extend t) ((o.begin opened).clip n) (u ++ '\n' :: t) r' →
        scanSpan Rule.standard options (levels + 1) (o.extend t) = .ok r' := by
  obtain ⟨opened, rest, ht, hl, hreads⟩ := exists_reads_of_scanSpan h
  obtain ⟨w, hw, hwidth⟩ := hb.text_eq
  simp only [Opening.width] at hwidth
  obtain ⟨u, rfl, rfl⟩ := Text.append_split_of_le (ht.symm.trans hw) (by omega)
  refine ⟨opened, u, .begin ht hl, hreads, fun r' hr' => ?_⟩
  have hbegin : (o.begin opened).clip n = (o.extend t).begin opened := by
    have h0 : (Move.clip n).stop 0 = 0 := by
      simp only [Move.clip]
      split <;> omega
    simp only [Opening.begin, Progress.clip, h0]
    rfl
  rw [hbegin] at hr'
  refine (scanSpan_succ_eq_ok_iff hexpired).mpr ⟨opened, u ++ '\n' :: t, ?_, ?_, hr'⟩
  · simp [Opening.extend, ht]
  · have hop := Rule.standard_opener o.kind (o.text ++ t) o.text
    have hlen := congrArg Text.byteLength hw
    simp only [Opening.extend, hop, Text.byteLength_append] at hlen hwidth ⊢
    omega

/-- At the seam no child is open any more. -/
theorem Opening.Borders.outside (hb : o.Borders n) (hm : o.Midway Rule.standard p ['\n']) :
    ¬ (p.clip n).pos < (p.clip n).resumeAt := by
  have hpos := hb.pos_lt hm
  have hres := hm.resume_le
  have hn := hb.stop_eq
  have hnl : ('\n').utf8Size = 1 := rfl
  simp only [Text.byteLength_cons, Text.byteLength_nil, hnl] at hpos
  simp only [Progress.clip, Move.clip]
  split <;> omega

theorem Text.StartsCode.leadingSpaces_eq (ht : t.StartsCode) : leadingSpaces t = 0 := by
  obtain ⟨d, rest, rfl, hspace, -⟩ := ht
  simp [leadingSpaces, hspace]

/-- In front of a line of code at the margin every definition closes. -/
theorem Text.StartsCode.closes (ht : t.StartsCode) {k : SpanKind} (hk : k.isDefinition = true)
    (indent : Nat) (back : Text) :
    (Rule.standard k).ending.closes indent ⟨back, '\n' :: t⟩ = true := by
  have hded : dedents indent [] ('\n' :: t) = true := by
    have hlead := ht.leadingSpaces_eq
    obtain ⟨d, rest, rfl, hspace, hfeed, hhash⟩ := ht
    simp [dedents, hlead, hspace, hfeed, hhash]
  cases k with
  | classDef | function | method | classMethod => exact hded
  | _ => cases hk

/-- Every span of the first file that reaches its end only with definitions is clipped. -/
theorem spansClip (hexpired : options.Untimed) (ht : t.StartsCode) :
    SpansClip options levels n t := by
  induction levels with
  | zero =>
    intro o r h
    simp [scanSpan] at h
  | succ levels ih =>
    intro o r h hf hb hdef
    obtain ⟨opened, u, hm, hreads, hlift⟩ := hb.enter (t := t) hexpired h
    have hcross := hreads.crosses ih hb hm (by simp [Opening.begin]) fun d hd =>
      hdef d (List.mem_cons_of_mem _ hd)
    cases hcross with
    | before r' run span_eq => exact ⟨r', hlift r' run, span_eq⟩
    | atSeam q midway plain span_eq run =>
      have hself := hdef r.span r.span.self_mem_preorder (by rw [span_eq]; rfl)
      rw [span_eq] at hself
      rcases hself with hk | ⟨hk, c, hc, hcd⟩
      · have fires := ht.closes hk o.indent (q.clip n).back
        refine ⟨_, hlift _ (run _ (.closes (hb.outside midway) (Rule.dispatch_lineFeed _ _ _)
          fires)), ?_⟩
        have hkeep : (Rule.standard o.kind).mustClose = false ∧
            (Rule.standard o.kind).trailing = 0 := by
          obtain ⟨kind, start, indent, text⟩ := o
          cases kind <;> first | exact ⟨rfl, rfl⟩ | cases hk
        have hclose := hb.close_clip (t := t) (List.append_nil o.text).symm hb.stop_eq.symm false
          q.children.reverse
        have hpos := hb.pos_lt midway
        have hnl : ('\n').utf8Size = 1 := rfl
        simp only [Text.byteLength_cons, Text.byteLength_nil, hnl] at hpos
        have hstop : (Move.clip n).stop n = q.pos := by
          rw [Move.clip_stop_self]
          omega
        rw [span_eq, hkeep.1, ← hclose, hstop]
        simp [Progress.clip, Opening.extend, hkeep.2]
      · -- a decorator would have been sealed with its definition
        have hopen := plain c (List.mem_reverse.mp hc)
        have hk : o.kind = .decorator := hk
        simp [Opening.sealedBy, hk, hcd, Rule.standard, Rule.decorator, End.isDecorated] at hopen

/-- The children of two files scanned as one: those of the first clipped, then those of the second
shifted. -/
theorem scan_append (hexpired : options.Untimed) {v s : Text} (hs : s = v ++ ['\n'])
    (ht : t.StartsCode) {a b : Span}
    (ha : scan options s = .ok a) (hset : ∀ d ∈ a.preorder, d.Settled (Text.byteLength s))
    (hb : scan options t = .ok b) :
    ∃ c, scan options (s ++ t) = .ok c ∧
      c.children = a.children.map (Span.move (.clip (Text.byteLength s))) ++
        b.children.map (Span.move (.shift (Text.byteLength s))) := by
  have hstop := (file_stop ha).2.2
  have hdef := scan_definitive hs ha hset
  obtain ⟨consumed, ha⟩ := RuleTable.scan_eq_ok_iff.mp ha
  obtain ⟨consumed', hb⟩ := RuleTable.scan_eq_ok_iff.mp hb
  have hborder : (⟨.file, 0, 0, s⟩ : Opening).Borders (Text.byteLength s) :=
    ⟨Nat.zero_add _, v, hs, Nat.zero_le _⟩
  obtain ⟨opened, u, hm, hreads, hlift⟩ := hborder.enter (t := t) hexpired ha
  have hcross := hreads.crosses (spansClip hexpired ht) hborder hm (by simp [Opening.begin]) hdef
  cases hcross with
  | before r' run span_eq =>
    -- the file cannot end before the seam
    have hscan : scan options (s ++ t) = .ok r'.span :=
      RuleTable.scan_eq_ok_iff.mpr ⟨r'.consumed, hlift r' run⟩
    have hlen := (file_stop hscan).2.2
    have hpos := Text.byteLength_pos (t := s) (by simp [hs])
    rw [span_eq, Span.move_stop, Text.byteLength_append, hstop, Move.clip_stop_self] at hlen
    omega
  | atSeam q midway plain span_eq run =>
    obtain ⟨openedt, rest, htext, hl, hreadst⟩ := exists_reads_of_scanSpan hb
    obtain rfl : openedt = [] := Text.byteLength_eq_zero.mp (by rw [hl]; exact Nat.zero_min _)
    obtain rfl : t = rest := htext
    have hpos := hborder.pos_lt midway
    have hout := hborder.outside midway
    have hp : ((⟨.file, 0, 0, t⟩ : Opening).begin []).Slid (.shift (Text.byteLength s)) 0
        (Text.byteLength s) (q.clip (Text.byteLength s)).children
        ((q.clip (Text.byteLength s)).step '\n' t) := by
      refine ⟨Nat.zero_le _, ?_, ht.leadingSpaces_eq, Or.inr ⟨Nat.le_refl 0, ?_⟩, rfl⟩
      · simpa [Opening.begin, Progress.step, Progress.clip] using hpos
      · have hlt : (q.clip (Text.byteLength s)).pos < Text.byteLength s := by
          simp only [Text.byteLength_cons, Text.byteLength_nil] at hpos
          have := ('\n').utf8Size_pos
          simp only [Progress.clip]
          omega
        simp only [Progress.step]
        omega
    have hkind : ((⟨.file, 0, 0, s⟩ : Opening).extend t).kind =
        (⟨.file, 0, 0, t⟩ : Opening).kind := rfl
    have hrigid := Move.shift_rigid (Text.byteLength s)
    have hsees : RuleTable.SeesAlike Rule.standard .file 0 ([] ++ []) ([] ++ '\n' :: q.back) t :=
      .behind rfl rfl []
    obtain ⟨r', hr', hspan⟩ := Reads.slide Rule.standard_regular hrigid
      (fun q s h => scanSpan_slide Rule.standard_regular hexpired hrigid h) hkind rfl
      (fun _ => rfl) hreadst hp hsees
    have hrun := run r' (.steps hout (Rule.dispatch_lineFeed _ _ _) rfl hr')
    refine ⟨r'.span, RuleTable.scan_eq_ok_iff.mpr ⟨r'.consumed, hlift r' hrun⟩, ?_⟩
    have hchildren : a.children = q.children.reverse := congrArg Span.children span_eq
    rw [hspan, hchildren]
    simp [Opening.close, Progress.clip]

end

end DocCoverage
