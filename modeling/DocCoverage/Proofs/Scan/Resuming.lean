import DocCoverage.Proofs.Scan.Offsets

/-!
# Resuming behind a child

The rules tell where a span resumes behind a child, for some kinds in front of the child's end. This
does not matter: a place inside a child is passed over, so a span always reads on at the end of its
child. Any other offsets that do not lie behind the ends give the same scans.
-/
namespace DocCoverage

/-- The table with other offsets to resume at. -/
def RuleTable.resuming (table : RuleTable) (resume : SpanKind → Int) : RuleTable :=
  fun k => { table k with resume := resume k }

/-- The place of a span right behind a child that is taken up. -/
def Progress.behind (p : Progress) (s : Span) : Progress where
  back := s.text.reverse ++ p.back
  pos := s.stop
  lineIndent := p.lineIndent
  resumeAt := s.stop
  children := s :: p.children

section

variable {table : RuleTable} {resume : SpanKind → Int} {options : ScanOptions} {levels : Nat}
  {o : Opening} {p : Progress} {c : Char} {rest : Text} {kind : SpanKind} {r : Scanned}

theorem RuleTable.Regular.resuming (hr : table.Regular)
    (h : ∀ k, resume k ≤ (table k).trailing) : (table.resuming resume).Regular where
  cut := hr.cut
  resume_le := h
  opener_pos := hr.opener_pos
  file_shut := hr.file_shut
  decorated_only := hr.decorated_only

theorem RuleTable.PassesBlanks.resuming (hblanks : table.PassesBlanks) (resume : SpanKind → Int) :
    (table.resuming resume).PassesBlanks where
  idle := hblanks.idle
  stays := hblanks.stays

theorem scanBody_behind (hr : table.Regular) (outside : ¬ p.pos < p.resumeAt)
    (opens : table.dispatch (table o.kind) ⟨p.back, c :: rest⟩ = some kind)
    (scanned : scanSpan table options levels (o.inner p kind (c :: rest)) = .ok r) :
    ∃ v, c :: rest = r.span.text ++ v ∧ r.span.stop = p.pos + Text.byteLength r.span.text ∧
      scanBody table options.expired (scanSpan table options levels) o p (c :: rest) =
        if o.sealedBy table r.span then
          .ok ⟨o.close r.span.stop false (r.span :: p.children).reverse, r.span.stop - o.start⟩
        else
          scanBody table options.expired (scanSpan table options levels) o (p.behind r.span) v := by
  have hs := scanSpan_sound hr scanned
  have hback := Opening.Midway.inner_handBack hr opens hs
  obtain ⟨u, v, rfl, -, hstop⟩ := Offsets.exists_child_text hr opens hs
  obtain ⟨after, hafter⟩ := hs.reading.text_eq
  have hlen := hs.reading.stop_eq
  have hstart : r.span.start = p.pos := hs.reading.start_eq
  obtain ⟨htext, -⟩ := Text.append_inj_of_byteLength (a := c :: u) (b := v) hafter (by omega)
  refine ⟨v, by rw [← htext]; rfl, by omega, ?_⟩
  obtain ⟨s, consumed⟩ := r
  simp only [Opening.inner] at scanned
  simp only [Progress.handBack] at hback hstop htext
  have hend : (p.skip c).pos + Text.byteLength u = s.stop := by
    rw [hstop, Text.byteLength_cons, ← Nat.add_assoc]
    rfl
  have hbehind : Progress.past
      { p.skip c with resumeAt := s.stop, children := s :: p.children } u = p.behind s := by
    simp only [Progress.past, Progress.behind, hend, ← htext]
    simp [Progress.skip]
  have hskip : scanBody table options.expired (scanSpan table options levels) o
      { p.skip c with resumeAt := s.stop, children := s :: p.children } (u ++ v) =
        scanBody table options.expired (scanSpan table options levels) o (p.behind s) v := by
    rw [← hbehind]
    exact scanBody_skips hend
  rw [scanBody, if_neg outside]
  cases hsealed : o.sealedBy table s with
  | true | false =>
    simp only [Opening.sealedBy] at hsealed
    simp only [opens, scanned, hback, hsealed, hskip, Bool.false_eq_true, if_false, if_true]

/-- A reader of children that gives the same spans as another one. -/
def SameSpans (child child' : Opening → Except ScanError Scanned) : Prop :=
  ∀ q, (child' q).map Scanned.span = (child q).map Scanned.span

theorem SameSpans.eq_error {child child' : Opening → Except ScanError Scanned}
    (h : SameSpans child child') {q : Opening} {e : ScanError} (hq : child q = .error e) :
    child' q = .error e := by
  have hspan := h q
  rw [hq] at hspan
  cases hq' : child' q with
  | error e' =>
    rw [hq'] at hspan
    rw [Except.error.inj hspan]
  | ok r' =>
    rw [hq'] at hspan
    cases hspan

theorem SameSpans.eq_ok {child child' : Opening → Except ScanError Scanned}
    (h : SameSpans child child') {q : Opening} (hq : child q = .ok r) :
    ∃ consumed, child' q = .ok ⟨r.span, consumed⟩ := by
  have hspan := h q
  rw [hq] at hspan
  cases hq' : child' q with
  | error e' =>
    rw [hq'] at hspan
    cases hspan
  | ok r' =>
    rw [hq'] at hspan
    rw [← Except.ok.inj hspan]
    exact ⟨r'.consumed, rfl⟩

/-- A body is read to the same span, however many bytes the children say they consumed. -/
theorem scanBody_resuming (hr : table.Regular) (h : ∀ k, resume k ≤ (table k).trailing)
    {expired : Nat → Bool} {child child' : Opening → Except ScanError Scanned}
    (hsame : SameSpans child child')
    (hsound : ∀ q r, child q = .ok r → q.Sound table r)
    (hsound' : ∀ q r, child' q = .ok r → q.Sound (table.resuming resume) r) (t : Text) :
    (scanBody (table.resuming resume) expired child' o p t).map Scanned.span =
      (scanBody table expired child o p t).map Scanned.span := by
  have hdispatch : ∀ cur, (table.resuming resume).dispatch (table.resuming resume o.kind) cur =
      table.dispatch (table o.kind) cur := fun _ => rfl
  have hending : (table.resuming resume o.kind).ending = (table o.kind).ending := rfl
  -- where a child hands back, by either table
  have hback : ∀ {p : Progress} {c : Char} {rest : Text} {kind : SpanKind} {s : Span}
      {n n' : Nat}, table.dispatch (table o.kind) ⟨p.back, c :: rest⟩ = some kind →
      child (o.inner p kind (c :: rest)) = .ok ⟨s, n⟩ →
      child' (o.inner p kind (c :: rest)) = .ok ⟨s, n'⟩ →
      max (p.pos + max n 1) s.stop = s.stop ∧ max (p.pos + max n' 1) s.stop = s.stop :=
    fun opens hs hs' => ⟨Opening.Midway.inner_handBack hr opens (hsound _ _ hs),
      Opening.Midway.inner_handBack (hr.resuming h) opens (hsound' _ _ hs')⟩
  fun_induction scanBody table expired child o p t with
  | case1 p => rfl
  | case2 p c rest inside ih =>
    rw [scanBody, if_pos inside]
    exact ih
  | case3 p c rest outside kind opens e failed =>
    rw [scanBody, if_neg outside]
    simp only [hdispatch, opens, hsame.eq_error failed]
  | case4 p c rest outside kind opens s consumed scanned resumeAt isLast =>
    obtain ⟨consumed', scanned'⟩ := hsame.eq_ok scanned
    obtain ⟨hstop, hstop'⟩ := hback opens scanned scanned'
    rw [scanBody, if_neg outside]
    simp only [hdispatch, opens, scanned', hending, isLast, if_true, hstop', resumeAt, hstop]
  | case5 p c rest outside kind opens s consumed scanned resumeAt goesOn ih =>
    obtain ⟨consumed', scanned'⟩ := hsame.eq_ok scanned
    obtain ⟨hstop, hstop'⟩ := hback opens scanned scanned'
    rw [scanBody, if_neg outside]
    simp only [hdispatch, opens, scanned', hending, if_neg goesOn, hstop']
    simp only [resumeAt, hstop] at ih ⊢
    exact ih
  | case6 p c rest outside idle fires =>
    rw [scanBody, if_neg outside]
    simp only [hdispatch, idle, hending, fires, if_true]
    rfl
  | case7 p c rest outside idle stays late =>
    rw [scanBody, if_neg outside]
    simp only [hdispatch, idle, hending, if_neg stays, if_pos late]
  | case8 p c rest outside idle stays intime ih =>
    rw [scanBody, if_neg outside]
    simp only [hdispatch, idle, hending, if_neg stays, if_neg intime]
    exact ih

theorem scanSpan_resuming (hr : table.Regular) (h : ∀ k, resume k ≤ (table k).trailing)
    (options : ScanOptions) (levels : Nat) :
    SameSpans (scanSpan table options levels)
      (scanSpan (table.resuming resume) options levels) := by
  induction levels with
  | zero => exact fun _ => rfl
  | succ levels ih =>
    intro o
    have hopener : (table.resuming resume o.kind).opener = (table o.kind).opener := rfl
    rw [scanSpan, scanSpan, hopener]
    split
    · rfl
    · dsimp only
      split
      · rfl
      · exact scanBody_resuming hr h ih (fun _ _ => scanSpan_sound hr)
          (fun _ _ => scanSpan_sound (hr.resuming h)) _

theorem RuleTable.scan_eq_of_resuming (hr : table.Regular)
    (h : ∀ k, resume k ≤ (table k).trailing) (options : ScanOptions) (source : Text) :
    (table.resuming resume).scan options source = table.scan options source := by
  have hsame := scanSpan_resuming hr h options (options.maxDepth + 1)
  unfold RuleTable.scan
  cases hscan : scanSpan table options (options.maxDepth + 1) ⟨.file, 0, 0, source⟩ with
  | error e => rw [hsame.eq_error hscan]
  | ok r =>
    obtain ⟨consumed, hscan'⟩ := hsame.eq_ok hscan
    rw [hscan']

end

/-- Scans do not depend on the offsets at which spans resume, as long as these do not lie behind
the ends: a scan gives the same tree or the same error, and breaks off inside a character where it
did. Whatever the offsets are, a span that takes up a child reads on exactly at the end of the
child, or is sealed there. -/
theorem scan_resuming {resume : SpanKind → Int}
    (h : ∀ k, resume k ≤ (Rule.standard k).trailing) (options : ScanOptions) :
    (∀ source,
      (RuleTable.resuming Rule.standard resume).scan options source = scan options source ∧
      Offsets.scan? (RuleTable.resuming Rule.standard resume) options source =
        Offsets.scan? Rule.standard options source) ∧
    ∀ table ∈ [Rule.standard, RuleTable.resuming Rule.standard resume],
      ∀ (levels : Nat) (o : Opening) (p : Progress) (c : Char) (rest : Text) (kind : SpanKind)
        (r : Scanned), ¬ p.pos < p.resumeAt →
        RuleTable.dispatch table (table o.kind) ⟨p.back, c :: rest⟩ = some kind →
        scanSpan table options levels (o.inner p kind (c :: rest)) = .ok r →
        ∃ v, c :: rest = r.span.text ++ v ∧
          (p.behind r.span).pos = p.pos + Text.byteLength r.span.text ∧
          scanBody table options.expired (scanSpan table options levels) o p (c :: rest) =
            if o.sealedBy table r.span then
              .ok ⟨o.close r.span.stop false (r.span :: p.children).reverse, r.span.stop - o.start⟩
            else
              scanBody table options.expired (scanSpan table options levels) o (p.behind r.span)
                v := by
  have hr := Rule.standard_regular
  have hblanks := Rule.standard_passesBlanks
  have hscan := RuleTable.scan_eq_of_resuming hr h options
  refine ⟨fun source => ⟨hscan source, ?_⟩, ?_⟩
  · rw [Offsets.scan?_eq (hr.resuming h) (hblanks.resuming resume), Offsets.scan?_eq hr hblanks,
      hscan]
  · intro table htable levels o p c rest kind r outside opens scanned
    simp only [List.mem_cons, List.not_mem_nil, or_false] at htable
    rcases htable with rfl | rfl
    · exact scanBody_behind hr outside opens scanned
    · exact scanBody_behind (hr.resuming h) outside opens scanned

/-- Far too small an offset behind every child: a method in a class, brackets in a placeholder. -/
theorem scan_resuming_early : (∀ k, (-9 : Int) ≤ (Rule.standard k).trailing) ∧
    ∃ tree, scan {} "class A:\n  def f(self):\n    x = f'\x7bé[1]\x7d'\n  y = 2\n" = .ok tree ∧
      (tree.preorder.map Span.kind) = [.file, .classDef, .method, .bracket, .formattedSingleString,
        .curvedBracket, .straightBracket, .classAttribute] ∧
      RuleTable.scan (RuleTable.resuming Rule.standard fun _ => -9) {}
        "class A:\n  def f(self):\n    x = f'\x7bé[1]\x7d'\n  y = 2\n" = .ok tree := by
  have h : ∀ k, (-9 : Int) ≤ (Rule.standard k).trailing := fun k => by omega
  have htest : (scan {} "class A:\n  def f(self):\n    x = f'\x7bé[1]\x7d'\n  y = 2\n").toOption.any
      (fun tree => tree.preorder.map Span.kind == [.file, .classDef, .method, .bracket,
        .formattedSingleString, .curvedBracket, .straightBracket, .classAttribute]) = true := by
    decide +kernel
  obtain ⟨tree, htree, hkinds⟩ := scan_ok_of_any htest
  exact ⟨h, tree, htree, eq_of_beq hkinds, (((scan_resuming h {}).1 _).1).trans htree⟩

end DocCoverage
