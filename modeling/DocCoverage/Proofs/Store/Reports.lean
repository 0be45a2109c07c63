import DocCoverage.Proofs.Run.Steps

/-!
# No report is a hash store

A report may be written over the hash file. Nothing is loaded from there then: a report in rows
starts with the name of a column, a report in JSON is an array, and a plain report ends with a word.
-/
namespace DocCoverage

theorem Column.select_ne_nil {names : List Text} {columns : List Column}
    (h : select names = .ok columns) : columns ≠ [] := by
  have hnames : ∀ {t : Text} {ts : List Text}, ofNames (t :: ts) = .ok columns → columns ≠ [] := by
    intro t ts ht
    rw [ofNames] at ht
    split at ht
    · cases ht
    · split at ht
      · cases ht
      · obtain rfl := Except.ok.inj ht
        exact List.cons_ne_nil _ _
  unfold select at h
  split at h
  · obtain rfl := Except.ok.inj h
    exact List.cons_ne_nil _ _
  · split at h
    · obtain rfl := Except.ok.inj h
      exact List.cons_ne_nil _ _
    · exact hnames h
  · rename_i hnil _
    cases names with
    | nil => exact absurd rfl hnil
    | cons t ts => exact hnames h

/-- A header is written as it is, and starts with a letter. -/
theorem Column.escape_header (c : Column) :
    ∃ a t, Csv.escape c.header = a :: t ∧ Json.isSpace a = false ∧ a ≠ '\x7b' := by
  cases c <;> exact ⟨_, _, rfl, by decide, by decide⟩

theorem Csv.isReport_rows {columns : List Column} {text : Text}
    (h : Command.IsReport .csv columns text) :
    ∃ rows, text = renderRows (headerRow columns :: rows) := by
  obtain ⟨records, rfl | ⟨existing, replaced, rfl⟩⟩ := h
  · exact ⟨_, rfl⟩
  · change ∃ rows, merge existing columns records replaced = _
    unfold merge
    split
    · exact ⟨_, rfl⟩
    · split
      · exact ⟨_, rfl⟩
      · split
        · exact ⟨_, rfl⟩
        · exact ⟨_, rfl⟩

theorem Csv.renderRows_head {columns : List Column} (h : columns ≠ []) (rows : List (List Text)) :
    ∃ a t, renderRows (headerRow columns :: rows) = a :: t ∧ Json.isSpace a = false ∧
      a ≠ '\x7b' := by
  cases columns with
  | nil => exact absurd rfl h
  | cons c columns =>
    obtain ⟨a, t, ht, hspace, hbracket⟩ := c.escape_header
    refine ⟨a, ?_⟩
    cases columns <;> simp [renderRows, renderRow, headerRow, Text.joinWith, ht, hspace, hbracket]

theorem JsonReport.isReport_head {columns : List Column} {text : Text}
    (h : Command.IsReport .json columns text) : ∃ t, text = '[' :: t := by
  have hobjects : ∀ objects, ∃ t, renderObjects objects = '[' :: t := by
    intro objects
    cases objects with
    | nil => exact ⟨_, rfl⟩
    | cons ms objects =>
      rw [renderObjects, List.map_cons, Json.pretty, Json.render]
      exact ⟨_, rfl⟩
  obtain ⟨records, rfl | ⟨existing, replaced, rfl⟩⟩ := h
  · exact hobjects _
  · change ∃ t, merge existing columns records replaced = _
    unfold merge
    split
    · exact hobjects _
    · exact hobjects _

theorem Plain.isReport_last {columns : List Column} {text : Text}
    (h : Command.IsReport .plain columns text) : ∃ t, text = t ++ ['e', '\n'] := by
  have hrender : ∀ records, ∃ t, render records = t ++ ['e', '\n'] := by
    intro records
    have hword : (" incomplete\n" : Text) = " incomplet".toList ++ ['e', '\n'] := rfl
    rw [render, totals, hword, ← List.append_assoc, ← List.append_assoc]
    exact ⟨_, rfl⟩
  obtain ⟨records, rfl | ⟨existing, replaced, rfl⟩⟩ := h
  · exact hrender records
  · exact hrender records

/-- Nothing is loaded from a report. -/
theorem HashStore.parse_report {format : Format} {columns : List Column} {text : Text}
    {s : HashStore} (hcolumns : columns ≠ []) (h : Command.IsReport format columns text) :
    parse text ≠ .ok s := by
  intro hparse
  obtain ⟨hfirst, hlast⟩ := brackets_of_parse hparse
  cases format with
  | csv =>
    obtain ⟨rows, rfl⟩ := Csv.isReport_rows h
    obtain ⟨a, t, ht, hspace, hbracket⟩ := Csv.renderRows_head hcolumns rows
    rw [ht, Json.skipSpace_of_not_isSpace hspace, List.head?_cons] at hfirst
    exact hbracket (Option.some.inj hfirst)
  | json =>
    obtain ⟨t, rfl⟩ := JsonReport.isReport_head h
    rw [Json.skipSpace_of_not_isSpace rfl] at hfirst
    cases hfirst
  | plain =>
    obtain ⟨t, rfl⟩ := Plain.isReport_last h
    rw [Json.lastVisible?, List.reverse_append] at hlast
    cases hlast

end DocCoverage
