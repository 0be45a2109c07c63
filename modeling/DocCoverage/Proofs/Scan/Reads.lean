import DocCoverage.Span.Scan
import DocCoverage.Proofs.Text.Cut

/-!
# Runs of the scanner

`Reads` lists what a span can do at one place of its text: pass over a place inside its last
child, take up a child, be sealed with its definition, close, or step on. A scan that succeeds has
such a run, and without a deadline every run is the scan, so properties of finished spans are
proved by induction on runs, and runs of larger texts are put together from smaller ones.
-/
namespace DocCoverage

/-- Absolute offset at which the enclosing span resumes behind a child that opened at `p`. -/
def Progress.handBack (p : Progress) (r : Scanned) : Nat :=
  max (p.pos + max r.consumed 1) r.span.stop

/-- One character further, with the child that opened at that character. -/
def Progress.adopt (p : Progress) (c : Char) (r : Scanned) : Progress :=
  { p.skip c with resumeAt := p.handBack r, children := r.span :: p.children }

namespace Opening

/-- The span right behind its opening delimiter. -/
def begin (o : Opening) (opened : Text) : Progress :=
  ⟨opened.reverse, o.start + Text.byteLength opened, o.indent, 0, []⟩

/-- The opening of a child of the given kind at a character. -/
def inner (o : Opening) (p : Progress) (kind : SpanKind) (ahead : Text) : Opening :=
  ⟨o.kind.refine o.text kind, p.pos, p.lineIndent, ahead⟩

/-- The span is sealed together with a child that is a definition. -/
def sealedBy (o : Opening) (table : RuleTable) (s : Span) : Bool :=
  s.kind.isDefinition && (table o.kind).ending.isDecorated

end Opening

/-- The runs by which a span reads the rest of its text, with `child` for the spans inside. -/
inductive Reads (table : RuleTable) (child : Opening → Scanned → Prop) (o : Opening) :
    Progress → Text → Scanned → Prop
  | atEnd (p : Progress) :
      Reads table child o p []
        ⟨o.close p.pos (table o.kind).mustClose p.children.reverse, p.pos - o.start⟩
  | inChild {p : Progress} {c : Char} {rest : Text} {r : Scanned} (inside : p.pos < p.resumeAt)
      (tail : Reads table child o (p.skip c) rest r) : Reads table child o p (c :: rest) r
  | takesUp {p : Progress} {c : Char} {rest : Text} {r s : Scanned} {kind : SpanKind}
      (outside : ¬ p.pos < p.resumeAt)
      (opens : table.dispatch (table o.kind) ⟨p.back, c :: rest⟩ = some kind)
      (scanned : child (o.inner p kind (c :: rest)) s)
      (goesOn : o.sealedBy table s.span = false)
      (tail : Reads table child o (p.adopt c s) rest r) : Reads table child o p (c :: rest) r
  | isSealed {p : Progress} {c : Char} {rest : Text} {s : Scanned} {kind : SpanKind}
      (outside : ¬ p.pos < p.resumeAt)
      (opens : table.dispatch (table o.kind) ⟨p.back, c :: rest⟩ = some kind)
      (scanned : child (o.inner p kind (c :: rest)) s)
      (isLast : o.sealedBy table s.span = true) :
      Reads table child o p (c :: rest)
        ⟨o.close (p.handBack s) false (s.span :: p.children).reverse, p.handBack s - o.start⟩
  | closes {p : Progress} {c : Char} {rest : Text} (outside : ¬ p.pos < p.resumeAt)
      (idle : table.dispatch (table o.kind) ⟨p.back, c :: rest⟩ = none)
      (fires : (table o.kind).ending.closes o.indent ⟨p.back, c :: rest⟩ = true) :
      Reads table child o p (c :: rest)
        ⟨o.close (p.pos + min (table o.kind).trailing (Text.byteLength (c :: rest))) false
            p.children.reverse,
          ((p.pos - o.start : Nat) + (table o.kind).resume).toNat⟩
  | steps {p : Progress} {c : Char} {rest : Text} {r : Scanned} (outside : ¬ p.pos < p.resumeAt)
      (idle : table.dispatch (table o.kind) ⟨p.back, c :: rest⟩ = none)
      (stays : (table o.kind).ending.closes o.indent ⟨p.back, c :: rest⟩ = false)
      (tail : Reads table child o (p.step c rest) rest r) : Reads table child o p (c :: rest) r

theorem Reads.mono {table : RuleTable} {child child' : Opening → Scanned → Prop} {o : Opening}
    {p : Progress} {t : Text} {r : Scanned} (h : Reads table child o p t r)
    (hc : ∀ o r, child o r → child' o r) : Reads table child' o p t r := by
  induction h with
  | atEnd p => exact .atEnd p
  | inChild inside _ ih => exact .inChild inside ih
  | takesUp outside opens scanned goesOn _ ih =>
    exact .takesUp outside opens (hc _ _ scanned) goesOn ih
  | isSealed outside opens scanned isLast => exact .isSealed outside opens (hc _ _ scanned) isLast
  | closes outside idle fires => exact .closes outside idle fires
  | steps outside idle stays _ ih => exact .steps outside idle stays ih

section

variable {table : RuleTable} {child : Opening → Scanned → Prop} {o : Opening} {p : Progress}
  {t : Text} {r : Scanned}

/-- Every result is its opening closed somewhere. -/
theorem Reads.span_eq (h : Reads table child o p t r) :
    r.span = o.close r.span.stop r.span.unterminated r.span.children := by
  induction h with
  | inChild _ _ ih | takesUp _ _ _ _ _ ih | steps _ _ _ _ ih => exact ih
  | _ => rfl

theorem Reads.children_subset (h : Reads table child o p t r) :
    ∀ s ∈ p.children, s ∈ r.span.children := by
  induction h with
  | atEnd p => simp [Opening.close]
  | inChild _ _ ih => exact ih
  | takesUp _ _ _ _ _ ih => exact fun s hs => ih s (List.mem_cons_of_mem _ hs)
  | isSealed => simp +contextual [Opening.close]
  | closes => simp [Opening.close]
  | steps _ _ _ _ ih => exact ih

/-- Every child was taken up before or starts from here on. -/
theorem Reads.mem_children (hchild : ∀ q s, child q s → s.span.start = q.start)
    (h : Reads table child o p t r) :
    ∀ d ∈ r.span.children, d ∈ p.children ∨ p.pos ≤ d.start := by
  induction h with
  | atEnd p => exact fun d hd => Or.inl (List.mem_reverse.mp hd)
  | inChild _ _ ih | steps _ _ _ _ ih =>
    exact fun d hd => (ih d hd).imp_right fun hle => Nat.le_trans (Nat.le_add_right _ _) hle
  | takesUp _ _ scanned _ _ ih =>
    intro d hd
    rcases ih d hd with hd | hle
    · rcases List.mem_cons.mp hd with rfl | hd
      · exact Or.inr (Nat.le_of_eq (hchild _ _ scanned).symm)
      · exact Or.inl hd
    · exact Or.inr (Nat.le_trans (Nat.le_add_right _ _) hle)
  | isSealed _ _ scanned =>
    intro d hd
    rcases List.mem_cons.mp (List.mem_reverse.mp hd) with rfl | hd
    · exact Or.inr (Nat.le_of_eq (hchild _ _ scanned).symm)
    · exact Or.inl hd
  | closes => exact fun d hd => Or.inl (List.mem_reverse.mp hd)

theorem Reads.pos_le_stop (h : Reads table child o p t r) : p.pos ≤ r.span.stop := by
  induction h with
  | atEnd p => exact Nat.le_refl _
  | inChild _ _ ih | takesUp _ _ _ _ _ ih | steps _ _ _ _ ih =>
    exact Nat.le_trans (Nat.le_add_right _ _) ih
  | isSealed =>
    simp only [Opening.close, Progress.handBack]
    omega
  | closes => exact Nat.le_add_right _ _

end

variable {table : RuleTable} {options : ScanOptions} {o : Opening} {r : Scanned}

/-- A body that is read in time is read by a run. -/
theorem Reads.of_scanBody {expired : Nat → Bool} {child : Opening → Except ScanError Scanned}
    {p : Progress} {t : Text} (h : scanBody table expired child o p t = .ok r) :
    Reads table (fun o r => child o = .ok r) o p t r := by
  fun_induction scanBody table expired child o p t with
  | case1 p =>
    obtain rfl := Except.ok.inj h
    exact .atEnd p
  | case2 p c rest inside ih => exact .inChild inside (ih h)
  | case3 => cases h
  | case4 p c rest outside kind opens s consumed scanned resumeAt isLast =>
    obtain rfl := Except.ok.inj h
    exact .isSealed (s := ⟨s, consumed⟩) outside opens scanned isLast
  | case5 p c rest outside kind opens s consumed scanned resumeAt goesOn ih =>
    exact .takesUp (s := ⟨s, consumed⟩) outside opens scanned (Bool.eq_false_iff.mpr goesOn)
      (ih h)
  | case6 p c rest outside idle fires =>
    obtain rfl := Except.ok.inj h
    exact .closes outside idle fires
  | case7 => cases h
  | case8 p c rest outside idle stays intime ih =>
    exact .steps outside idle (Bool.eq_false_iff.mpr stays) (ih h)

/-- Without a deadline a run reads a body. -/
theorem Reads.scanBody_eq_ok {expired : Nat → Bool} {child : Opening → Except ScanError Scanned}
    {p : Progress} {t : Text} (hexpired : ∀ offset, expired offset = false)
    (h : Reads table (fun o r => child o = .ok r) o p t r) :
    scanBody table expired child o p t = .ok r := by
  induction h with
  | atEnd p => rfl
  | inChild inside _ ih => rw [scanBody, if_pos inside, ih]
  | @takesUp p c rest r s kind outside opens scanned goesOn _ ih =>
    obtain ⟨s, consumed⟩ := s
    simp only [Opening.inner] at scanned
    simp only [Opening.sealedBy] at goesOn
    simp only [scanBody, if_neg outside, opens, scanned, goesOn]
    exact ih
  | @isSealed p c rest s kind outside opens scanned isLast =>
    obtain ⟨s, consumed⟩ := s
    simp only [Opening.inner] at scanned
    simp only [Opening.sealedBy] at isLast
    simp only [scanBody, if_neg outside, opens, scanned, isLast, if_true]
    rfl
  | closes outside idle fires =>
    simp only [scanBody, if_neg outside, idle, fires, if_true]
  | steps outside idle stays _ ih =>
    simp only [scanBody, if_neg outside, idle, stays, hexpired, Bool.and_false]
    exact ih

/-- A span that is scanned in time is read by a run behind its opening delimiter. -/
theorem exists_reads_of_scanSpan {levels : Nat}
    (h : scanSpan table options (levels + 1) o = .ok r) :
    ∃ opened rest, o.text = opened ++ rest ∧
      Text.byteLength opened = min ((table o.kind).opener o.text) (Text.byteLength o.text) ∧
      Reads table (fun o r => scanSpan table options levels o = .ok r) o (o.begin opened)
        rest r := by
  rw [scanSpan] at h
  split at h
  · cases h
  · dsimp only at h
    split at h
    · cases h
    · rename_i opened rest hs
      obtain ⟨ht, hl⟩ := Text.splitAt?_eq_some_iff.mp hs
      refine ⟨opened, rest, ht, hl, ?_⟩
      rw [Opening.begin, hl]
      exact .of_scanBody h

/-- Without a deadline a span is scanned successfully exactly by a run behind its opening
delimiter. -/
theorem scanSpan_succ_eq_ok_iff {levels : Nat} (hexpired : options.Untimed) :
    scanSpan table options (levels + 1) o = .ok r ↔
      ∃ opened rest, o.text = opened ++ rest ∧
        Text.byteLength opened =
          min ((table o.kind).opener o.text) (Text.byteLength o.text) ∧
        Reads table (fun o r => scanSpan table options levels o = .ok r) o (o.begin opened)
          rest r := by
  refine ⟨exists_reads_of_scanSpan, ?_⟩
  rintro ⟨opened, rest, ht, hl, h⟩
  have hbody := h.scanBody_eq_ok hexpired
  rw [Opening.begin, hl] at hbody
  rw [scanSpan, if_neg (by simp [hexpired o.start])]
  simp only [Text.splitAt?_eq_some_iff.mpr ⟨ht, hl⟩]
  exact hbody

theorem ScanOptions.untimed_untimed : options.untimed.Untimed := fun _ => rfl

/-- What is scanned in time is scanned alike without a deadline. -/
theorem scanSpan_untimed {levels : Nat} (h : scanSpan table options levels o = .ok r) :
    scanSpan table options.untimed levels o = .ok r := by
  induction levels generalizing o r with
  | zero => simp [scanSpan] at h
  | succ levels ih =>
    obtain ⟨opened, rest, ht, hl, hreads⟩ := exists_reads_of_scanSpan h
    exact (scanSpan_succ_eq_ok_iff options.untimed_untimed).mpr
      ⟨opened, rest, ht, hl, hreads.mono fun _ _ => ih⟩

/-- What every run hands on from the children to the span holds of every scanned span. -/
theorem scanSpan_induction {motive : Opening → Scanned → Prop}
    (read : ∀ (o : Opening) (opened rest : Text) (r : Scanned), o.text = opened ++ rest →
      Text.byteLength opened = min ((table o.kind).opener o.text) (Text.byteLength o.text) →
      Reads table motive o (o.begin opened) rest r → motive o r)
    {levels : Nat} (h : scanSpan table options levels o = .ok r) : motive o r := by
  induction levels generalizing o r with
  | zero => simp [scanSpan] at h
  | succ levels ih =>
    obtain ⟨opened, rest, ht, hl, hr⟩ := exists_reads_of_scanSpan h
    exact read o opened rest r ht hl (hr.mono fun _ _ => ih)

theorem RuleTable.scan_eq_ok_iff {source : Text} {tree : Span} :
    table.scan options source = .ok tree ↔
      ∃ consumed, scanSpan table options (options.maxDepth + 1) ⟨.file, 0, 0, source⟩ =
        .ok ⟨tree, consumed⟩ := by
  unfold RuleTable.scan
  cases scanSpan table options (options.maxDepth + 1) ⟨.file, 0, 0, source⟩ with
  | error e => simp
  | ok r =>
    obtain ⟨s, consumed⟩ := r
    simp

theorem RuleTable.scan_untimed {source : Text} {tree : Span}
    (h : table.scan options source = .ok tree) : table.scan options.untimed source = .ok tree := by
  obtain ⟨consumed, h⟩ := RuleTable.scan_eq_ok_iff.mp h
  exact RuleTable.scan_eq_ok_iff.mpr ⟨consumed, scanSpan_untimed h⟩

/-- A scan that passes a test has a tree. -/
theorem scan_ok_of_any {source : Text} {test : Span → Bool}
    (h : (scan options source).toOption.any test = true) :
    ∃ tree, scan options source = .ok tree ∧ test tree = true := by
  cases hs : scan options source with
  | error e => simp [hs, Except.toOption] at h
  | ok tree => exact ⟨tree, rfl, by simpa [hs, Except.toOption] using h⟩

end DocCoverage
