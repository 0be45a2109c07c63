import DocCoverage.Proofs.Report.Rows

/-!
# The last step that covers a path decides its rows

A report is written in steps. Each step brings records and the paths it covers, the first one writes
a new report and every later one merges into the text before it. Read back, the text is that of a
single new report: the records that no later step covered, in the order in which they came. So for
each path the rows are those of the last step that covers it, whatever the cells hold.
-/
namespace DocCoverage.Csv

/-- The records of one step, and the paths whose rows they replace. -/
structure Step where
  records : List Record
  paths : List Text

/-- The records of a step lie in the paths that it covers. -/
def Step.Owns (s : Step) : Prop := ∀ r ∈ s.records, r.path ∈ s.paths

instance (s : Step) : Decidable s.Owns :=
  inferInstanceAs (Decidable (∀ r ∈ s.records, r.path ∈ s.paths))

/-- The report after a first step and later ones. -/
def reportAfter (columns : List Column) (first : Step) (later : List Step) : Text :=
  later.foldl (fun report s => merge report columns s.records s.paths)
    (render columns first.records)

/-- The records that a step leaves: the old ones outside its paths and then its own. -/
def Step.onto (old : List Record) (s : Step) : List Record :=
  (old.filter fun r => !s.paths.contains r.path) ++ s.records

variable {columns : List Column} {old : List Record} {s : Step} {path : Text}

/-- Merging into a new report gives the new report of the records that the step leaves. -/
theorem merge_render (h : Column.path ∈ columns) (old : List Record) (s : Step) :
    merge (render columns old) columns s.records s.paths = render columns (s.onto old) := by
  obtain ⟨index, hindex, hpath⟩ := exists_index h
  have hkept : (old.map (recordRow columns)).filter (fun row => !belongsTo s.paths index row) =
      (old.filter fun r => !s.paths.contains r.path).map (recordRow columns) := by
    rw [List.filter_map]
    congr 2
    funext r
    rw [Function.comp_apply, belongsTo_recordRow hpath]
  rw [merge, parse_render (List.ne_nil_of_mem h)]
  simp only [hindex, bne_self_eq_false, Bool.false_eq_true, if_false, hkept]
  rw [render, Step.onto, List.map_append]
  rfl

/-- After any steps the report is the new report of the records that are left. -/
theorem reportAfter_eq (h : Column.path ∈ columns) (first : Step) (later : List Step) :
    reportAfter columns first later = render columns ((first :: later).foldl Step.onto []) := by
  have hrun : ∀ old, later.foldl (fun report s => merge report columns s.records s.paths)
      (render columns old) = render columns (later.foldl Step.onto old) := by
    induction later with
    | nil => exact fun old => rfl
    | cons s later ih =>
      intro old
      rw [List.foldl_cons, merge_render h, ih, List.foldl_cons]
  exact hrun first.records

theorem filter_onto_of_not_mem (hs : s.Owns) (h : path ∉ s.paths) :
    (s.onto old).filter (fun r => r.path == path) = old.filter fun r => r.path == path := by
  have hnew : s.records.filter (fun r => r.path == path) = [] := by
    rw [List.filter_eq_nil_iff]
    intro r hr heq
    exact h (eq_of_beq heq ▸ hs r hr)
  rw [Step.onto, List.filter_append, hnew, List.append_nil, List.filter_filter]
  refine List.filter_congr fun r _ => ?_
  by_cases hr : r.path = path
  · simp [hr, h]
  · simp [hr]

theorem filter_onto_of_mem (h : path ∈ s.paths) :
    (s.onto old).filter (fun r => r.path == path) = s.records.filter fun r => r.path == path := by
  have hold : (old.filter fun r => !s.paths.contains r.path).filter (fun r => r.path == path) =
      [] := by
    rw [List.filter_eq_nil_iff]
    intro r hr heq
    have hout := (List.mem_filter.mp hr).2
    rw [eq_of_beq heq, List.contains_iff_mem.mpr h] at hout
    cases hout
  rw [Step.onto, List.filter_append, hold, List.nil_append]

/-- Steps that do not cover a path leave its records as they were. -/
theorem filter_foldl_onto {steps : List Step} (hs : ∀ s ∈ steps, s.Owns)
    (h : ∀ s ∈ steps, path ∉ s.paths) :
    (steps.foldl Step.onto old).filter (fun r => r.path == path) =
      old.filter fun r => r.path == path := by
  induction steps generalizing old with
  | nil => rfl
  | cons s steps ih =>
    rw [List.foldl_cons, ih (fun t ht => hs t (List.mem_cons_of_mem s ht))
      (fun t ht => h t (List.mem_cons_of_mem s ht)),
      filter_onto_of_not_mem (hs s List.mem_cons_self) (h s List.mem_cons_self)]

theorem filter_cell {i : Nat} (hi : columns[i]? = some .path) (path : Text)
    (records : List Record) :
    (records.map (recordRow columns)).filter (fun row => row[i]? == some path) =
      (records.filter fun r => r.path == path).map (recordRow columns) := by
  rw [List.filter_map]
  congr 2
  funext r
  simp [recordRow, hi, Column.cell, Cell.display]

/-- A report written in steps is read back with its header first. For each path the rows behind it
are those of the last step that covers the path, in their order, and there are none if no step
does. -/
theorem parse_reportAfter (h : Column.path ∈ columns) {first : Step} {later : List Step}
    (hs : ∀ s ∈ first :: later, s.Owns) :
    ∃ rows, parse (reportAfter columns first later) = headerRow columns :: rows ∧
      (∀ row ∈ rows, row.length = columns.length) ∧
      ∀ (i : Nat), columns[i]? = some .path → ∀ path,
        (∀ before s after, first :: later = before ++ s :: after → path ∈ s.paths →
          (∀ t ∈ after, path ∉ t.paths) →
          rows.filter (fun row => row[i]? == some path) =
            (s.records.filter fun r => r.path == path).map (recordRow columns)) ∧
        ((∀ s ∈ first :: later, path ∉ s.paths) →
          rows.filter (fun row => row[i]? == some path) = []) := by
  refine ⟨((first :: later).foldl Step.onto []).map (recordRow columns), ?_, ?_, ?_⟩
  · rw [reportAfter_eq h, parse_render (List.ne_nil_of_mem h)]
  · intro row hrow
    obtain ⟨r, -, rfl⟩ := List.mem_map.mp hrow
    exact length_recordRow r
  · intro i hi path
    rw [filter_cell hi]
    constructor
    · intro before s after hsteps hcovers hlast
      rw [hsteps] at hs ⊢
      have hafter : ∀ t ∈ after, t.Owns := fun t ht =>
        hs t (List.mem_append_right _ (List.mem_cons_of_mem s ht))
      rw [List.foldl_append, List.foldl_cons, filter_foldl_onto hafter hlast,
        filter_onto_of_mem hcovers]
    · intro hnone
      rw [filter_foldl_onto hs hnone]
      rfl

/-- A path that cannot stand in a row without quotes. -/
def oddPath : Text := "a,\"b\"\r\n.py"

/-- Two files, one of them with the odd path. -/
def oddStep : Step where
  records := [{ path := oddPath, name := "old", kind := .function },
    { path := "c.py", name := "x\ny", kind := .file }]
  paths := [oddPath, "c.py"]

/-- The odd path once more, and a path without records. -/
def nextStep : Step where
  records := [{ path := oddPath, name := "", kind := .file },
    { path := oddPath, name := "\"q\"", kind := .classDef }]
  paths := [oddPath, "d.py"]

/-- The second step decides the rows of the odd path, and those of the other file stay. -/
theorem parse_reportAfter_odd : (∀ s ∈ [oddStep, nextStep], s.Owns) ∧
    ∃ rows, parse (reportAfter [.name, .path] oddStep [nextStep]) =
        headerRow [.name, .path] :: rows ∧
      rows.filter (fun row => row[1]? == some oddPath) =
        [[[], oddPath], ["\"q\"".toList, oddPath]] ∧
      rows.filter (fun row => row[1]? == some "c.py".toList) =
        [["x\ny".toList, "c.py".toList]] ∧
      rows.filter (fun row => row[1]? == some "d.py".toList) = [] ∧
      rows.filter (fun row => row[1]? == some "e.py".toList) = [] := by
  have hcolumn : Column.path ∈ [Column.name, Column.path] := by decide
  have hs : ∀ s ∈ [oddStep, nextStep], s.Owns := by decide
  obtain ⟨rows, hparse, -, hrows⟩ := parse_reportAfter hcolumn hs
  refine ⟨hs, rows, hparse, ?_, ?_, ?_, ?_⟩
  · exact (hrows 1 rfl oddPath).1 [oddStep] nextStep [] rfl (by decide) (by decide)
  · exact (hrows 1 rfl _).1 [] oddStep [nextStep] rfl (by decide) (by decide)
  · exact (hrows 1 rfl _).1 [oddStep] nextStep [] rfl (by decide) (by decide)
  · exact (hrows 1 rfl _).2 (by decide)

end DocCoverage.Csv
