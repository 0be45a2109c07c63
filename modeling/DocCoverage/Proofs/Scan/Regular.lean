import DocCoverage.Proofs.Scan.Reads

/-!
# Regular rule tables

What the placement of spans needs from a table of rules: the end of a span leaves a whole number
of characters behind it, an enclosing span never resumes beyond the end of a child, every opener
has a width, the file opens nowhere, and only decorators are sealed with a definition. The
standard table is regular.
-/
namespace DocCoverage

structure RuleTable.Regular (table : RuleTable) : Prop where
  /-- The bytes that still belong to a span behind its end position are whole characters. -/
  cut : ∀ (k : SpanKind) (indent : Nat) (cur : Cursor),
    (table k).ending.closes indent cur = true →
      ∃ a b, cur.ahead = a ++ b ∧ Text.byteLength a = (table k).trailing
  resume_le : ∀ k, (table k).resume ≤ (table k).trailing
  opener_pos : ∀ k t, k ≠ .file → 0 < (table k).opener t
  file_shut : ∀ cur, (table .file).opens cur = false
  decorated_only : ∀ k, (table k).ending.isDecorated = true → k = .decorator

namespace RuleTable

theorem dispatch_eq_some {table : RuleTable} {parent : Rule} {cur : Cursor} {k : SpanKind}
    (h : table.dispatch parent cur = some k) :
    k ∈ parent.children ∧ (table k).opens cur = true := by
  have hk := List.find?_some h
  simpa using hk

theorem Regular.dispatch_ne_file {table : RuleTable} (hr : table.Regular) {parent : Rule}
    {cur : Cursor} {k : SpanKind} (h : table.dispatch parent cur = some k) : k ≠ .file := by
  rintro rfl
  have ho := (dispatch_eq_some h).2
  rw [hr.file_shut] at ho
  cases ho

end RuleTable

theorem SpanKind.refine_ne_file {k : SpanKind} (parent : SpanKind) (t : Text) (h : k ≠ .file) :
    parent.refine t k ≠ .file := by
  unfold refine
  split
  · decide
  · exact h

theorem SpanKind.refine_of_ne {parent : SpanKind} (h : parent ≠ .decorator) (t : Text)
    (k : SpanKind) : parent.refine t k = k := by
  simp [refine, h]

/-- A line feed stands where a span ends by its indentation. -/
theorem dedents_lineFeed {indent : Nat} {exempt : List Char} {t : Text}
    (h : dedents indent exempt t = true) : ∃ rest, t = '\n' :: rest := by
  unfold dedents at h
  split at h
  · exact ⟨_, rfl⟩
  · cases h

namespace Rule

theorem starts_eq_true {p : Char → Bool} {t : Text} (h : starts p t = true) :
    ∃ c rest, t = c :: rest ∧ p c = true := by
  cases t with
  | nil => cases h
  | cons c rest => exact ⟨c, rest, rfl, h⟩

theorem starts_only {q : Char} {t : Text} (h : starts (only q) t = true) :
    ∃ rest, t = q :: rest := by
  obtain ⟨c, rest, rfl, hc⟩ := starts_eq_true h
  exact ⟨rest, by rw [eq_of_beq hc]⟩

/-- An end that looks at the text ahead fires only where that text is accepted. -/
theorem accepts_of_closes {accepts : Text → Bool} {unescaped : Bool} {indent : Nat}
    {cur : Cursor} (h : (End.ahead accepts unescaped).closes indent cur = true) :
    accepts cur.ahead = true := by
  simp only [End.closes, Bool.and_eq_true] at h
  exact h.2

/-- A rule without trailing bytes cuts at the end position itself. -/
theorem cut_here (t : Text) : ∃ a b, t = a ++ b ∧ Text.byteLength a = 0 := ⟨[], t, rfl, rfl⟩

theorem cut_single {q : Char} {t : Text} (hq : q.utf8Size = 1) (h : starts (only q) t = true) :
    ∃ a b, t = a ++ b ∧ Text.byteLength a = 1 := by
  obtain ⟨rest, rfl⟩ := starts_only h
  exact ⟨[q], rest, rfl, by simp [hq]⟩

theorem cut_triple {q : Char} {t : Text} (hq : q.utf8Size = 1) (h : word [q, q, q] t = true) :
    ∃ a b, t = a ++ b ∧ Text.byteLength a = 3 := by
  obtain ⟨rest, rfl⟩ := Text.startsWith_iff.mp h
  exact ⟨[q, q, q], rest, rfl, by simp [hq]⟩

theorem standard_cut (k : SpanKind) (indent : Nat) (cur : Cursor)
    (h : (standard k).ending.closes indent cur = true) :
    ∃ a b, cur.ahead = a ++ b ∧ Text.byteLength a = (standard k).trailing := by
  cases k with
  | bracket | straightBracket | curvedBracket => exact cut_single rfl (accepts_of_closes h)
  | formattedSingleString | formattedDoubleString | singleString | doubleString =>
    exact cut_single rfl (accepts_of_closes h)
  | singleDocstring | doubleDocstring => exact cut_triple rfl (accepts_of_closes h)
  | _ => exact cut_here _

theorem standard_regular : RuleTable.Regular standard where
  cut := standard_cut
  resume_le k := by cases k <;> decide
  opener_pos k t h := by
    cases k with
    | file => exact absurd rfl h
    | singleDocstring | doubleDocstring => exact Nat.zero_lt_succ 2
    | _ => exact Nat.zero_lt_one
  file_shut cur := by
    unfold opens
    cases cur.ahead <;> rfl
  decorated_only k h := by
    cases k with
    | decorator => rfl
    | _ => cases h

end Rule

end DocCoverage
