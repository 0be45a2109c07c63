import DocCoverage.Proofs.Locality.Lines
import DocCoverage.Proofs.Scan.Reading
import DocCoverage.Proofs.Span.Move

/-!
# Scanning the same text elsewhere

A span that opens on the same text at another offset of a file is scanned to the same span with
all offsets shifted. The same holds for the rest of a span of which two files have read different
parts, as long as it sees nothing of the difference, for instance behind a line feed: what the span
has passed already is kept, and the new children come behind the old ones.
-/
namespace DocCoverage

/-- All offsets larger by `n`. -/
def Move.shift (n : Nat) : Move := ⟨(· + n), (· + n), fun _ t => t⟩

@[simp] theorem Move.shift_start (n e : Nat) : (Move.shift n).start e = e + n := rfl

@[simp] theorem Move.shift_stop (n e : Nat) : (Move.shift n).stop e = e + n := rfl

@[simp] theorem Move.shift_text (n e : Nat) (t : Text) : (Move.shift n).text e t = t := rfl

/-- From offset `a` on the move takes `a + e` to `b + e` and changes no texts. -/
structure Move.Rigid (m : Move) (a b : Nat) : Prop where
  start : ∀ e, a ≤ e → m.start e + a = e + b
  stop : ∀ e, a ≤ e → m.stop e + a = e + b
  text : ∀ e t, a + Text.byteLength t ≤ e → m.text e t = t

theorem Move.shift_rigid (n : Nat) : (Move.shift n).Rigid 0 n where
  start _ _ := rfl
  stop _ _ := rfl
  text _ _ _ := rfl

section

variable {extra : Text} (hextra : extra.headD '\n' = '\n')
include hextra

theorem Rule.opens_behind (r : Rule) (back t : Text) :
    r.opens ⟨back ++ extra, t⟩ = r.opens ⟨back, t⟩ := by
  have hbefore : (back ++ extra).headD '\n' = back.headD '\n' := by
    cases back with
    | nil => exact hextra
    | cons c back => rfl
  have hhead : (back ++ extra).takeWhile (· != '\n') = back.takeWhile (· != '\n') := by
    cases extra with
    | nil => simp
    | cons c extra =>
      obtain rfl : c = '\n' := hextra
      exact Text.takeWhile_append_cons rfl back extra
  simp only [Rule.opens, Cursor.before, Cursor.atLineHead, hbefore, hhead]

theorem RuleTable.dispatch_behind (table : RuleTable) (parent : Rule) (back t : Text) :
    table.dispatch parent ⟨back ++ extra, t⟩ = table.dispatch parent ⟨back, t⟩ := by
  unfold RuleTable.dispatch
  simp only [Rule.opens_behind hextra]

theorem End.closes_behind (e : End) (indent : Nat) (back t : Text) :
    e.closes indent ⟨back ++ extra, t⟩ = e.closes indent ⟨back, t⟩ := by
  have hrun : (back ++ extra).takeWhile (· == '\\') = back.takeWhile (· == '\\') := by
    cases extra with
    | nil => simp
    | cons c extra =>
      obtain rfl : c = '\n' := hextra
      exact Text.takeWhile_append_cons rfl back extra
  cases e with
  | eof | dedent | decorated => rfl
  | ahead accepts unescaped => simp only [End.closes, Cursor.escaped, hrun]

end

/-- Behind two different texts a span sees the same children and ends in the text ahead. -/
def RuleTable.SeesAlike (table : RuleTable) (kind : SpanKind) (indent : Nat)
    (back back' t : Text) : Prop :=
  ∀ w c rest, t = w ++ c :: rest →
    table.dispatch (table kind) ⟨w.reverse ++ back', c :: rest⟩ =
      table.dispatch (table kind) ⟨w.reverse ++ back, c :: rest⟩ ∧
    (table kind).ending.closes indent ⟨w.reverse ++ back', c :: rest⟩ =
      (table kind).ending.closes indent ⟨w.reverse ++ back, c :: rest⟩

namespace RuleTable.SeesAlike

variable {table : RuleTable} {kind : SpanKind} {indent : Nat} {back back' t : Text} {c : Char}

theorem tail (h : table.SeesAlike kind indent back back' (c :: t)) :
    table.SeesAlike kind indent (c :: back) (c :: back') t := by
  rintro w d rest rfl
  have hw := h (c :: w) d rest rfl
  rwa [List.reverse_cons, List.append_assoc, List.append_assoc] at hw

/-- Different texts behind a line feed are not seen. -/
theorem behind {extra extra' : Text} (h : extra.headD '\n' = '\n') (h' : extra'.headD '\n' = '\n')
    (back : Text) : table.SeesAlike kind indent (back ++ extra) (back ++ extra') t := by
  intro w d rest _
  simp only [← List.append_assoc, table.dispatch_behind h, table.dispatch_behind h',
    End.closes_behind h, End.closes_behind h', and_self]

end RuleTable.SeesAlike

/-- Two states of the same reading, at offset `a + e` of one file and `b + e` of another one, the
second behind the children `old`. -/
structure Progress.Slid (m : Move) (a b : Nat) (old : List Span) (p p' : Progress) : Prop where
  behind : a ≤ p.pos
  pos : p'.pos + a = p.pos + b
  lineIndent : p'.lineIndent = p.lineIndent
  resumeAt : a ≤ p.resumeAt ∧ p'.resumeAt + a = p.resumeAt + b ∨ p.resumeAt ≤ a ∧ p'.resumeAt ≤ b
  children : p'.children = p.children.map (Span.move m) ++ old

namespace Progress.Slid

variable {m : Move} {a b : Nat} {old : List Span} {p p' : Progress} {c : Char}

theorem inside_iff (h : p.Slid m a b old p') : p'.pos < p'.resumeAt ↔ p.pos < p.resumeAt := by
  have hpos := h.pos
  have hbehind := h.behind
  rcases h.resumeAt with ⟨hle, hres⟩ | ⟨hle, hres⟩ <;> omega

theorem stop_eq (hm : m.Rigid a b) (h : p.Slid m a b old p') (n : Nat) :
    m.stop (p.pos + n) = p'.pos + n := by
  have hmoved := hm.stop (p.pos + n) (Nat.le_add_right_of_le h.behind)
  have hpos := h.pos
  omega

theorem skip (h : p.Slid m a b old p') : (p.skip c).Slid m a b old (p'.skip c) where
  behind := Nat.le_add_right_of_le h.behind
  pos := by
    have hpos := h.pos
    simp only [Progress.skip]
    omega
  lineIndent := h.lineIndent
  resumeAt := h.resumeAt
  children := h.children

theorem step (h : p.Slid m a b old p') (rest : Text) :
    (p.step c rest).Slid m a b old (p'.step c rest) where
  behind := Nat.le_add_right_of_le h.behind
  pos := by
    have hpos := h.pos
    simp only [Progress.step]
    omega
  lineIndent := by simp only [Progress.step, h.lineIndent]
  resumeAt := h.resumeAt
  children := h.children

theorem adopt (hm : m.Rigid a b) (h : p.Slid m a b old p') {s s' : Scanned}
    (hs : p.handBack s = s.span.stop) (hs' : p'.handBack s' = s'.span.stop)
    (hspan : s'.span = s.span.move m) (hstop : a ≤ s.span.stop) :
    (p.adopt c s).Slid m a b old (p'.adopt c s') where
  behind := (h.skip (c := c)).behind
  pos := (h.skip (c := c)).pos
  lineIndent := h.lineIndent
  resumeAt := by
    simp only [Progress.adopt, hs, hs', hspan, Span.move_stop]
    exact Or.inl ⟨hstop, hm.stop _ hstop⟩
  children := by simp [Progress.adopt, h.children, hspan]

end Progress.Slid

namespace Opening

/-- The same opening at offset `b + e` of another file, in place of `a + e`. -/
def slide (a b : Nat) (o : Opening) : Opening := { o with start := o.start + b - a }

theorem close_slide {m : Move} {a b : Nat} (hm : m.Rigid a b) {o : Opening} (ha : a ≤ o.start)
    {s : Span} (hs : s = o.close s.stop s.unterminated s.children)
    (hstop : s.stop = s.start + Text.byteLength s.text) :
    (o.slide a b).close (m.stop s.stop) s.unterminated (s.children.map (Span.move m)) =
      s.move m := by
  have hstart : s.start = o.start := by
    rw [hs]
    rfl
  have hmoved := hm.start o.start ha
  have hend := hm.stop s.stop (by omega)
  have htext := hm.text s.stop s.text (by omega)
  have hlen : m.stop s.stop - (o.start + b - a) = s.stop - o.start := by omega
  generalize s.stop = stop, s.unterminated = flag, s.children = children at *
  subst hs
  simp only [close] at htext
  simp only [close, slide, Span.move, Span.moveAll_eq_map, hlen, htext, Span.mk.injEq, true_and,
    and_true]
  omega

end Opening

theorem Progress.Slid.inner {m : Move} {a b : Nat} {old : List Span} {p p' : Progress}
    (h : p.Slid m a b old p') {o o' : Opening} {kind : SpanKind} {t : Text}
    (hrefine : o'.kind.refine o'.text kind = o.kind.refine o.text kind) :
    (o.inner p kind t).slide a b = o'.inner p' kind t := by
  have hpos := h.pos
  simp only [Opening.inner, Opening.slide, hrefine, h.lineIndent, Opening.mk.injEq, true_and,
    and_true]
  omega

section

variable {table : RuleTable} {options : ScanOptions} {levels a b : Nat} {m : Move}

/-- A run on the same text elsewhere: the old children stay in front. -/
theorem Reads.slide (hr : table.Regular) (hm : m.Rigid a b)
    (ih : ∀ q s, scanSpan table options levels q = .ok s → a ≤ q.start →
      ∃ s', scanSpan table options levels (q.slide a b) = .ok s' ∧ s'.span = s.span.move m)
    {old : List Span} {o o' : Opening} (hkind : o'.kind = o.kind) (hindent : o'.indent = o.indent)
    (hrefine : ∀ k, o'.kind.refine o'.text k = o.kind.refine o.text k)
    {p p' : Progress} {t : Text} {r : Scanned}
    (h : Reads table (fun q s => scanSpan table options levels q = .ok s) o p t r)
    (hp : p.Slid m a b old p') (hsees : table.SeesAlike o.kind o.indent p.back p'.back t) :
    ∃ r', Reads table (fun q s => scanSpan table options levels q = .ok s) o' p' t r' ∧
      r'.span = o'.close (m.stop r.span.stop) r.span.unterminated
        (old.reverse ++ r.span.children.map (Span.move m)) := by
  induction h generalizing p' with
  | atEnd p =>
    refine ⟨_, .atEnd p', ?_⟩
    have hstop : m.stop p.pos = p'.pos := hp.stop_eq hm 0
    simp [Opening.close, hkind, hp.children, hstop]
  | inChild inside _ ih' =>
    obtain ⟨r', hr', hspan⟩ := ih' hp.skip hsees.tail
    exact ⟨r', .inChild (hp.inside_iff.mpr inside) hr', hspan⟩
  | @takesUp p c rest r s kind outside opens scanned goesOn _ ih' =>
    obtain ⟨s', scanned', hspan⟩ := ih _ _ scanned hp.behind
    rw [hp.inner (hrefine kind)] at scanned'
    have opens' : table.dispatch (table o'.kind) ⟨p'.back, c :: rest⟩ = some kind := by
      rw [hkind, ← opens]
      exact (hsees [] c rest rfl).1
    have hback := Opening.Midway.inner_handBack hr opens (scanSpan_sound hr scanned)
    have hback' := Opening.Midway.inner_handBack hr opens' (scanSpan_sound hr scanned')
    have hstop : a ≤ s.span.stop := by
      have hbehind := hp.behind
      rw [← hback, Progress.handBack]
      omega
    obtain ⟨r', hr', hspan'⟩ := ih' (hp.adopt hm hback hback' hspan hstop) hsees.tail
    refine ⟨r', .takesUp (fun hin => outside (hp.inside_iff.mp hin)) opens' scanned' ?_ hr', hspan'⟩
    simpa [Opening.sealedBy, hkind, hspan] using goesOn
  | @isSealed p c rest s kind outside opens scanned isLast =>
    obtain ⟨s', scanned', hspan⟩ := ih _ _ scanned hp.behind
    rw [hp.inner (hrefine kind)] at scanned'
    have opens' : table.dispatch (table o'.kind) ⟨p'.back, c :: rest⟩ = some kind := by
      rw [hkind, ← opens]
      exact (hsees [] c rest rfl).1
    have hback := Opening.Midway.inner_handBack hr opens (scanSpan_sound hr scanned)
    have hback' := Opening.Midway.inner_handBack hr opens' (scanSpan_sound hr scanned')
    refine ⟨_, .isSealed (fun hin => outside (hp.inside_iff.mp hin)) opens' scanned' ?_, ?_⟩
    · simpa [Opening.sealedBy, hkind, hspan] using isLast
    · simp only [hback, hback', hp.children, hspan, Span.move_stop]
      simp [Opening.close]
  | @closes p c rest outside idle fires =>
    obtain ⟨hopens, hcloses⟩ := hsees [] c rest rfl
    refine ⟨_, .closes (fun hin => outside (hp.inside_iff.mp hin)) ?_ ?_, ?_⟩
    · rw [hkind, ← idle]
      exact hopens
    · rw [hkind, hindent, ← fires]
      exact hcloses
    · rw [hp.children, hkind]
      simp only [Opening.close, hp.stop_eq hm, List.reverse_append, List.map_reverse]
  | @steps p c rest r outside idle stays _ ih' =>
    obtain ⟨hopens, hcloses⟩ := hsees [] c rest rfl
    obtain ⟨r', hr', hspan⟩ := ih' (hp.step rest) hsees.tail
    refine ⟨r', .steps (fun hin => outside (hp.inside_iff.mp hin)) ?_ ?_ hr', hspan⟩
    · rw [hkind, ← idle]
      exact hopens
    · rw [hkind, hindent, ← stays]
      exact hcloses

theorem scanSpan_slide (hr : table.Regular) (hexpired : options.Untimed) (hm : m.Rigid a b)
    {o : Opening} {r : Scanned} (h : scanSpan table options levels o = .ok r) (ha : a ≤ o.start) :
    ∃ r', scanSpan table options levels (o.slide a b) = .ok r' ∧ r'.span = r.span.move m := by
  induction levels generalizing o r with
  | zero => simp [scanSpan] at h
  | succ levels ih =>
    have hstop := (scanSpan_sound hr h).reading.stop_eq
    obtain ⟨opened, rest, ht, hl, hreads⟩ := exists_reads_of_scanSpan h
    have hp : (o.begin opened).Slid m a b [] ((o.slide a b).begin opened) := by
      refine ⟨Nat.le_add_right_of_le ha, ?_, rfl, Or.inr ⟨Nat.zero_le a, Nat.zero_le b⟩, rfl⟩
      simp only [Opening.begin, Opening.slide]
      omega
    have hsees : table.SeesAlike o.kind o.indent (o.begin opened).back
        ((o.slide a b).begin opened).back rest := fun _ _ _ _ => ⟨rfl, rfl⟩
    have hkind : (o.slide a b).kind = o.kind := rfl
    obtain ⟨r', hr', hspan⟩ :=
      Reads.slide hr hm (fun q s hq => ih hq) hkind rfl (fun _ => rfl) hreads hp hsees
    refine ⟨r', (scanSpan_succ_eq_ok_iff hexpired).mpr ⟨opened, rest, ht, hl, hr'⟩, ?_⟩
    rw [hspan, List.reverse_nil, List.nil_append, Opening.close_slide hm ha hreads.span_eq hstop]

end

end DocCoverage
