import DocCoverage.Proofs.Scan.Faults

/-!
# Openers of whole characters

The standard opener of a class attribute is one byte, also where the name starts with a longer
character. In the table of whole openers it is the first character instead, and every opener is a
cut, so that a scan by that table fails only for want of nesting levels. The standard scan is this
one up to the first class attribute whose name does not start with an ASCII character.
-/
namespace DocCoverage

namespace Rule

def firstWidth : Text → Nat
  | [] => 1
  | c :: _ => c.utf8Size

/-- The standard rules, except that a class attribute opens with a whole character. -/
def whole : RuleTable
  | .classAttribute => { classAttribute with opener := firstWidth }
  | k => standard k

theorem whole_of_ne {k : SpanKind} (h : k ≠ .classAttribute) : whole k = standard k := by
  cases k with
  | classAttribute => exact absurd rfl h
  | _ => rfl

theorem whole_agrees : RuleTable.Agrees whole standard where
  opens k cur := by cases k <;> rfl
  ending k := by cases k <;> rfl
  trailing k := by cases k <;> rfl
  resume k := by cases k <;> rfl
  mustClose k := by cases k <;> rfl
  children k := by cases k <;> rfl

theorem whole_regular : RuleTable.Regular whole where
  cut k indent cur h := by
    rw [← whole_agrees.ending] at h
    rw [← whole_agrees.trailing]
    exact standard_regular.cut k indent cur h
  resume_le k := by
    rw [← whole_agrees.resume, ← whole_agrees.trailing]
    exact standard_regular.resume_le k
  opener_pos k t h := by
    by_cases hk : k = .classAttribute
    · subst hk
      cases t with
      | nil => exact Nat.zero_lt_one
      | cons c t => exact c.utf8Size_pos
    · rw [whole_of_ne hk]
      exact standard_regular.opener_pos k t h
  file_shut cur := standard_regular.file_shut cur
  decorated_only k h := by
    rw [← whole_agrees.ending] at h
    exact standard_regular.decorated_only k h

theorem cut?_isSome {r : Rule} {a b : Text} (h : r.opener (a ++ b) = Text.byteLength a) :
    (r.cut? (a ++ b)).isSome := by
  have hmin : min (r.opener (a ++ b)) (Text.byteLength (a ++ b)) = Text.byteLength a := by
    rw [h, Text.byteLength_append]
    omega
  rw [cut?, hmin, Text.splitAt?_append rfl]
  rfl

/-- A rule whose first character and opener both have one byte. -/
theorem cut?_of_only {r : Rule} {q c : Char} {t : Text} (hq : q.utf8Size = 1)
    (hc : only q c = true) (ho : r.opener (c :: t) = 1) : (r.cut? (c :: t)).isSome := by
  obtain rfl : c = q := eq_of_beq hc
  exact cut?_isSome (a := [c]) (by simpa [hq] using ho)

theorem cut?_of_triple {q c : Char} {t : Text} (hq : q.utf8Size = 1) (hc : only q c = true)
    (ht : word [q, q] t = true) : ((tripleQuoted q).cut? (c :: t)).isSome := by
  obtain rfl : c = q := eq_of_beq hc
  obtain ⟨rest, rfl⟩ := Text.startsWith_iff.mp ht
  exact cut?_isSome (a := [c, c, c]) (b := rest) (by simp [hq, tripleQuoted])

theorem whole_cut_of_opens {k : SpanKind} {cur : Cursor} (h : (whole k).opens cur = true) :
    ((whole k).cut? cur.ahead).isSome := by
  obtain ⟨back, ahead⟩ := cur
  cases ahead with
  | nil => cases h
  | cons c t =>
    simp only [opens, Bool.and_eq_true] at h
    obtain ⟨⟨⟨hcurrent, -⟩, hahead⟩, -⟩ := h
    cases k with
    | file => cases hcurrent
    | classAttribute => exact cut?_isSome (a := [c]) (by simp [whole, firstWidth])
    | singleDocstring | doubleDocstring => exact cut?_of_triple rfl hcurrent hahead
    | _ => exact cut?_of_only rfl hcurrent rfl

end Rule

/-- A method may be read as a classmethod; every other kind stays as it is. -/
theorem SpanKind.refine_eq_or (parent k : SpanKind) (t : Text) :
    parent.refine t k = k ∨ k = .method ∧ parent.refine t k = .classMethod := by
  unfold refine
  split
  · rename_i h
    simp only [Bool.and_eq_true, beq_iff_eq] at h
    exact Or.inr ⟨h.1.2, rfl⟩
  · exact Or.inl rfl

theorem Rule.whole_cuts : RuleTable.Cuts Rule.whole where
  file t := cut?_isSome (r := Rule.file) (a := []) (b := t) rfl
  opened parent k t cur h := by
    rcases SpanKind.refine_eq_or parent k t with hk | ⟨rfl, hk⟩
    · rw [hk]
      exact whole_cut_of_opens h
    · rw [hk]
      -- methods and classmethods open alike
      exact whole_cut_of_opens (k := .classMethod) h

/-- A class attribute whose name does not start with an ASCII character. -/
def Span.splitsCharacter (s : Span) : Bool :=
  s.kind == .classAttribute && s.text.head?.any (127 < ·.toNat)

theorem Text.utf8Size_eq_one_iff {c : Char} : c.utf8Size = 1 ↔ ¬ 127 < c.toNat := by
  rw [Char.utf8Size_eq_one_iff, UInt32.le_iff_toNat_le]
  exact Nat.not_lt.symm

theorem Rule.standard_cut?_classAttribute (c : Char) (t : Text) :
    (standard .classAttribute).cut? (c :: t) =
      if 127 < c.toNat then .none else (whole .classAttribute).cut? (c :: t) := by
  have hpos := c.utf8Size_pos
  have hmin : min 1 (Text.byteLength (c :: t)) = 1 := by
    rw [Text.byteLength_cons]
    omega
  split
  · rename_i h
    have hsize : c.utf8Size ≠ 1 := fun hone => Text.utf8Size_eq_one_iff.mp hone h
    show Text.splitAt? (min 1 (Text.byteLength (c :: t))) (c :: t) = .none
    rw [hmin, Text.splitAt?, if_neg (by omega)]
  · rename_i h
    have hsize : c.utf8Size = 1 := Text.utf8Size_eq_one_iff.mpr h
    simp only [cut?, standard, classAttribute, whole, firstWidth, hsize]

/-- The standard opener of a finished span is a cut unless it splits a character. -/
theorem Rule.standard_cut?_eq {q : Opening} {s : Scanned} (h : q.Sound whole s) :
    (standard q.kind).cut? q.text =
      if s.span.splitsCharacter then .none else (whole q.kind).cut? q.text := by
  have hkind := h.reading.kind_eq
  by_cases hk : q.kind = .classAttribute
  · cases ht : q.text with
    | nil =>
      obtain ⟨after, hafter⟩ := h.reading.text_eq
      rw [ht, List.nil_eq, List.append_eq_nil_iff] at hafter
      simp only [Span.splitsCharacter, hafter.1, List.head?_nil, Option.any_none, Bool.and_false,
        Bool.false_eq_true, if_false, hk]
      rfl
    | cons c t =>
      have hadv := h.advances (by rw [hk]; decide) (by simp [ht])
      obtain ⟨after, hafter⟩ := h.reading.text_eq
      have hstop := h.reading.stop_eq
      obtain ⟨u, hu⟩ : ∃ u, s.span.text = c :: u := by
        cases hst : s.span.text with
        | nil =>
          rw [hst, Text.byteLength_nil] at hstop
          omega
        | cons d u =>
          rw [hst, ht, List.cons_append, List.cons.injEq] at hafter
          exact ⟨u, by rw [hafter.1]⟩
      have hsplit : s.span.splitsCharacter = decide (127 < c.toNat) := by
        simp [Span.splitsCharacter, hkind, hk, hu]
      rw [hsplit, hk]
      simpa using Rule.standard_cut?_classAttribute c t
  · have hsplit : s.span.splitsCharacter = false := by simp [Span.splitsCharacter, hkind, hk]
    rw [hsplit, whole_of_ne hk]
    rfl

namespace Span

/-- The result of a scan with the given depth limit, in terms of the finished tree. -/
def outcome (limit : Nat) (barred : Span → Bool) (tree : Span) : Except ScanError Span :=
  match tree.firstFault limit barred (limit + 1) with
  | none => .ok tree
  | some e => .error e

end Span

theorem RuleTable.scan_eq_outcome {table table' : RuleTable} {options options' : ScanOptions}
    {barred : Span → Bool} {source : Text} {tree : Span} (hr : table.Regular)
    (hagree : table.Agrees table')
    (hcut : ∀ (q : Opening) (s : Scanned), q.Sound table s → (table' q.kind).cut? q.text =
      if barred s.span then none else (table q.kind).cut? q.text)
    (hlive : options'.Untimed) (h : table.scan options source = .ok tree) :
    table'.scan options' source = tree.outcome options'.maxDepth barred := by
  obtain ⟨consumed, h⟩ := RuleTable.scan_eq_ok_iff.mp h
  rw [RuleTable.scan, scanSpan_eq_orFault hr hagree hcut hlive h]
  simp only [Scanned.orFault, Span.outcome]
  cases tree.firstFault options'.maxDepth barred (options'.maxDepth + 1) <;> rfl

/-- A table with whole openers only has a tree for which the depth limit alone decides. -/
theorem RuleTable.scan_eq_outcome_self {table : RuleTable} {options options' : ScanOptions}
    {source : Text} {tree : Span} (hr : table.Regular) (hlive : options'.Untimed)
    (h : table.scan options source = .ok tree) :
    table.scan options' source = tree.outcome options'.maxDepth fun _ => false :=
  scan_eq_outcome hr (.refl table) (fun _ _ _ => rfl) hlive h

/-- Every file has a tree of whole openers, which a scan with any large depth limit gives and which
tells what a standard scan with any depth limit gives. -/
theorem exists_whole_tree (source : Text) : ∃ tree,
    (∀ options : ScanOptions, options.Untimed →
      Text.byteLength source ≤ options.maxDepth → Rule.whole.scan options source = .ok tree) ∧
    ∀ options : ScanOptions, options.Untimed →
      scan options source = tree.outcome options.maxDepth Span.splitsCharacter := by
  obtain ⟨tree, htree⟩ : ∃ tree,
      Rule.whole.scan { maxDepth := Text.byteLength source } source = .ok tree :=
    Rule.whole_cuts.scan_total Rule.whole_regular (fun _ => rfl) (Nat.le_refl _)
  refine ⟨tree, fun options hlive hdepth => ?_, fun options hlive => ?_⟩
  · obtain ⟨tree', htree'⟩ := Rule.whole_cuts.scan_total Rule.whole_regular hlive hdepth
    have hout := RuleTable.scan_eq_outcome_self Rule.whole_regular hlive htree
    rw [htree', Span.outcome] at hout
    split at hout
    · rwa [Except.ok.inj hout] at htree'
    · cases hout
  · exact RuleTable.scan_eq_outcome Rule.whole_regular Rule.whole_agrees
      (fun _ _ hs => Rule.standard_cut?_eq hs) hlive htree

end DocCoverage
