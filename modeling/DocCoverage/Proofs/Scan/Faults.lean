import DocCoverage.Proofs.Scan.Reading

/-!
# Where a scan fails

Two tables that differ in their openers only give the same spans as long as every opener is a cut.
Against the finished tree of the one table, a scan by the other one visits the spans in preorder
and fails at the first that it cannot open: because no nesting level is left for it, or because
its opener ends inside a character. Without such a span it gives the same tree. The nesting levels
are never used up when there are as many as bytes, since each span but the first opens behind the
opener of the one around it.
-/
namespace DocCoverage

/-- Where the opening delimiter of a span ends, if that is a cut. -/
def Rule.cut? (r : Rule) (t : Text) : Option (Text × Text) :=
  Text.splitAt? (min (r.opener t) (Text.byteLength t)) t

/-- Two tables say the same about everything but the width of openers. -/
structure RuleTable.Agrees (table table' : RuleTable) : Prop where
  opens : ∀ k cur, (table' k).opens cur = (table k).opens cur
  ending : ∀ k, (table' k).ending = (table k).ending
  trailing : ∀ k, (table' k).trailing = (table k).trailing
  resume : ∀ k, (table' k).resume = (table k).resume
  mustClose : ∀ k, (table' k).mustClose = (table k).mustClose
  children : ∀ k, (table' k).children = (table k).children

namespace RuleTable.Agrees

variable {table table' : RuleTable}

theorem refl (table : RuleTable) : table.Agrees table where
  opens _ _ := rfl
  ending _ := rfl
  trailing _ := rfl
  resume _ := rfl
  mustClose _ := rfl
  children _ := rfl

theorem dispatch (h : table.Agrees table') (k : SpanKind) (cur : Cursor) :
    table'.dispatch (table' k) cur = table.dispatch (table k) cur := by
  simp only [RuleTable.dispatch, h.children, h.opens]

end RuleTable.Agrees

/-- The result of a scan that meets a fault on the way, if there is one. -/
def Scanned.orFault (r : Scanned) : Option ScanError → Except ScanError Scanned
  | none => .ok r
  | some e => .error e

/-- The fault of the first span, in preorder, that cannot be opened with the given number of
nesting levels left: there is no level for it, or it is one of the `barred`. -/
def Span.firstFault (limit : Nat) (barred : Span → Bool) : (levels : Nat) → Span → Option ScanError
  | 0, s => some (.depthExceeded limit s.start)
  | n + 1, s =>
    if barred s then some (.openerSplitsCharacter s.start)
    else s.children.findSome? (firstFault limit barred n)

section

variable {table table' : RuleTable} {o : Opening} {p : Progress} {t : Text} {r : Scanned}

/-- Along a run, another scan without a deadline meets the faults of the children that are still to
come. -/
theorem Reads.scanBody_eq {expired : Nat → Bool} (hexpired : ∀ offset, expired offset = false)
    {child : Opening → Scanned → Prop} {child' : Opening → Except ScanError Scanned}
    {fault : Span → Option ScanError}
    (h : Reads table child o p t r) (hagree : table.Agrees table')
    (hchild : ∀ q s, child q s → child' q = s.orFault (fault s.span)) :
    ∃ ahead, r.span.children = p.children.reverse ++ ahead ∧
      scanBody table' expired child' o p t = r.orFault (ahead.findSome? fault) := by
  induction h with
  | atEnd p =>
    refine ⟨[], by simp [Opening.close], ?_⟩
    simp [scanBody, hagree.mustClose, Scanned.orFault]
  | inChild inside _ ih =>
    obtain ⟨ahead, hkids, hbody⟩ := ih
    exact ⟨ahead, hkids, by rw [scanBody, if_pos inside, hbody]⟩
  | @takesUp p c rest r s kind outside opens scanned goesOn _ ih =>
    obtain ⟨ahead, hkids, hbody⟩ := ih
    have hs := hchild _ _ scanned
    obtain ⟨s, consumed⟩ := s
    refine ⟨s :: ahead, by simp [hkids, Progress.adopt], ?_⟩
    simp only [Opening.inner] at hs
    simp only [Opening.sealedBy] at goesOn
    rw [scanBody, if_neg outside]
    simp only [hagree.dispatch, opens, hs, List.findSome?_cons]
    cases hf : fault s with
    | some e => rfl
    | none =>
      simp only [Scanned.orFault, hagree.ending, goesOn]
      exact hbody
  | @isSealed p c rest s kind outside opens scanned isLast =>
    have hs := hchild _ _ scanned
    obtain ⟨s, consumed⟩ := s
    refine ⟨[s], by simp [Opening.close], ?_⟩
    simp only [Opening.inner] at hs
    simp only [Opening.sealedBy] at isLast
    rw [scanBody, if_neg outside]
    simp only [hagree.dispatch, opens, hs, List.findSome?_cons, List.findSome?_nil]
    cases hf : fault s with
    | some e => rfl
    | none =>
      simp only [Scanned.orFault, hagree.ending, isLast, if_true]
      rfl
  | closes outside idle fires =>
    refine ⟨[], by simp [Opening.close], ?_⟩
    simp only [scanBody, if_neg outside, hagree.dispatch, idle, hagree.ending, fires, if_true,
      hagree.trailing, hagree.resume]
    rfl
  | steps outside idle stays _ ih =>
    obtain ⟨ahead, hkids, hbody⟩ := ih
    refine ⟨ahead, hkids, ?_⟩
    simp only [scanBody, if_neg outside, hagree.dispatch, idle, hagree.ending, stays, hexpired,
      Bool.and_false]
    exact hbody

/-- A scan by a table that agrees with another one fails at the first span of the finished tree
that it cannot open, and otherwise gives that tree. -/
theorem scanSpan_eq_orFault {options options' : ScanOptions} {levels : Nat}
    {barred : Span → Bool} (hr : table.Regular) (hagree : table.Agrees table')
    (hcut : ∀ (q : Opening) (s : Scanned), q.Sound table s → (table' q.kind).cut? q.text =
      if barred s.span then none else (table q.kind).cut? q.text)
    (hlive : options'.Untimed) (h : scanSpan table options levels o = .ok r) (n : Nat) :
    scanSpan table' options' n o =
      r.orFault (r.span.firstFault options'.maxDepth barred n) := by
  induction n generalizing o r levels with
  | zero =>
    have hstart := (scanSpan_sound hr h).reading.start_eq
    rw [scanSpan, Span.firstFault, hstart]
    rfl
  | succ n ih =>
    have hsound := scanSpan_sound hr h
    have hc := hcut o r hsound
    cases levels with
    | zero => simp [scanSpan] at h
    | succ levels =>
      obtain ⟨opened, rest, ht, hl, hreads⟩ := exists_reads_of_scanSpan h
      have hopened : (table o.kind).cut? o.text = some (opened, rest) :=
        Text.splitAt?_eq_some_iff.mpr ⟨ht, hl⟩
      rw [hopened] at hc
      simp only [Rule.cut?] at hc
      rw [scanSpan, if_neg (by simp [hlive o.start]), Span.firstFault]
      by_cases hb : barred r.span = true
      · rw [if_pos hb] at hc
        simp only [hc, if_pos hb, hsound.reading.start_eq]
        rfl
      · rw [if_neg hb] at hc
        obtain ⟨ahead, hkids, hbody⟩ := hreads.scanBody_eq hlive hagree fun q s hq => ih hq
        have hstart := (Text.splitAt?_eq_some_iff.mp hc).2
        simp only [hc, if_neg hb, hkids]
        simp only [Opening.begin, hstart] at hbody
        simpa [Opening.begin] using hbody

end

/-! ## Scans that do not fail -/

/-- The opener of every span that can open is a cut. -/
structure RuleTable.Cuts (table : RuleTable) : Prop where
  file : ∀ t, ((table .file).cut? t).isSome
  opened : ∀ (parent k : SpanKind) (t : Text) (cur : Cursor), (table k).opens cur = true →
    ((table (parent.refine t k)).cut? cur.ahead).isSome

section

variable {table : RuleTable} {o : Opening} {p : Progress} {t : Text}

theorem scanBody_total {expired : Nat → Bool} (hexpired : ∀ offset, expired offset = false)
    {child : Opening → Except ScanError Scanned} (width : Nat)
    (hchild : ∀ (p : Progress) (kind : SpanKind) (c : Char) (rest : Text),
      width ≤ Text.byteLength p.back → o.text = p.back.reverse ++ c :: rest →
      table.dispatch (table o.kind) ⟨p.back, c :: rest⟩ = some kind →
      ∃ s, child (o.inner p kind (c :: rest)) = .ok s)
    (ht : o.text = p.back.reverse ++ t) (hw : width ≤ Text.byteLength p.back) :
    ∃ r, scanBody table expired child o p t = .ok r := by
  fun_induction scanBody table expired child o p t with
  | case1 p => exact ⟨_, rfl⟩
  | case2 p c rest inside ih =>
    exact ih (by simp [Progress.skip, ht]) (by simp [Progress.skip]; omega)
  | case3 p c rest outside kind opens e failed =>
    obtain ⟨s, hs⟩ := hchild p kind c rest hw ht opens
    rw [Opening.inner, failed] at hs
    cases hs
  | case4 => exact ⟨_, rfl⟩
  | case5 p c rest outside kind opens s consumed scanned resumeAt goesOn ih =>
    exact ih (by simp [Progress.skip, ht]) (by simp [Progress.skip]; omega)
  | case6 => exact ⟨_, rfl⟩
  | case7 p c rest outside idle stays late =>
    rw [hexpired, Bool.and_false] at late
    cases late
  | case8 p c rest outside idle stays intime ih =>
    exact ih (by simp [Progress.step, ht]) (by simp [Progress.step]; omega)

theorem scanSpan_of_cut {options : ScanOptions} {levels : Nat}
    (hlive : options.Untimed) {opened rest : Text}
    (hcut : (table o.kind).cut? o.text = some (opened, rest)) :
    scanSpan table options (levels + 1) o =
      scanBody table options.expired (scanSpan table options levels) o (o.begin opened) rest := by
  have hlen := (Text.splitAt?_eq_some_iff.mp hcut).2
  simp only [Rule.cut?] at hcut
  simp only [scanSpan, hlive o.start, hcut, Opening.begin, hlen]
  rfl

theorem RuleTable.Cuts.inner (hcuts : table.Cuts) (hr : table.Regular) {kind : SpanKind} {c : Char}
    {rest : Text} (opens : table.dispatch (table o.kind) ⟨p.back, c :: rest⟩ = some kind) :
    (o.inner p kind (c :: rest)).kind ≠ .file ∧
      ((table (o.inner p kind (c :: rest)).kind).cut? (o.inner p kind (c :: rest)).text).isSome :=
  ⟨SpanKind.refine_ne_file o.kind o.text (hr.dispatch_ne_file opens),
    hcuts.opened o.kind kind o.text ⟨p.back, c :: rest⟩ (dispatch_eq_some opens).2⟩

theorem scanSpan_total {options : ScanOptions} {levels : Nat} (hr : table.Regular)
    (hcuts : table.Cuts) (hlive : options.Untimed) (hkind : o.kind ≠ .file)
    (hcut : ((table o.kind).cut? o.text).isSome) (ht : o.text ≠ [])
    (hlevels : Text.byteLength o.text ≤ levels) :
    ∃ r, scanSpan table options levels o = .ok r := by
  induction levels generalizing o with
  | zero =>
    have hpos := Text.byteLength_pos ht
    omega
  | succ levels ih =>
    obtain ⟨⟨opened, rest⟩, hcut⟩ := Option.isSome_iff_exists.mp hcut
    obtain ⟨htext, hlen⟩ := Text.splitAt?_eq_some_iff.mp hcut
    have hopener := hr.opener_pos o.kind o.text hkind
    have hpos := Text.byteLength_pos ht
    rw [scanSpan_of_cut hlive hcut]
    refine scanBody_total hlive 1 (fun p kind c rest' hw hp opens => ?_)
      (by simpa [Opening.begin] using htext) (by simp [Opening.begin]; omega)
    -- the child opens behind the opener, so its text is shorter
    have hbytes := congrArg Text.byteLength hp
    simp only [Text.byteLength_append, Text.byteLength_reverse] at hbytes
    obtain ⟨hne, hin⟩ := hcuts.inner (o := o) (p := p) hr opens
    exact ih hne hin (by simp [Opening.inner]) (by simp only [Opening.inner]; omega)

/-- A file with at most as many bytes as the depth limit is scanned to its end. -/
theorem RuleTable.Cuts.scan_total {options : ScanOptions} {source : Text} (hcuts : table.Cuts)
    (hr : table.Regular) (hlive : options.Untimed)
    (hdepth : Text.byteLength source ≤ options.maxDepth) :
    ∃ tree, table.scan options source = .ok tree := by
  have hfile : ∃ r,
      scanSpan table options (options.maxDepth + 1) ⟨.file, 0, 0, source⟩ = .ok r := by
    obtain ⟨⟨opened, rest⟩, hcut⟩ := Option.isSome_iff_exists.mp (hcuts.file source)
    have htext := (Text.splitAt?_eq_some_iff.mp hcut).1
    rw [scanSpan_of_cut hlive hcut]
    refine scanBody_total hlive 0 (fun p kind c rest' _ hp opens => ?_)
      (by simpa [Opening.begin] using htext) (Nat.zero_le _)
    have hbytes := congrArg Text.byteLength hp
    simp only [Text.byteLength_append] at hbytes
    obtain ⟨hne, hin⟩ := hcuts.inner (o := ⟨.file, 0, 0, source⟩) (p := p) hr opens
    exact scanSpan_total hr hcuts hlive hne hin (by simp [Opening.inner])
      (by simp only [Opening.inner]; omega)
  obtain ⟨⟨tree, consumed⟩, hr⟩ := hfile
  exact ⟨tree, RuleTable.scan_eq_ok_iff.mpr ⟨consumed, hr⟩⟩

end

end DocCoverage
