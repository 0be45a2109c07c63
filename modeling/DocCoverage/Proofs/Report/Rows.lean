import DocCoverage.Report.Csv

/-!
# Reading the rows of a report back

Rows with at least one field are read back from the text they are written as, whatever characters
their fields hold. So merging is an operation on rows: it drops those of the replaced paths and
appends those of the new records, and what a report says about a path can be followed from one
command to the next.
-/
namespace DocCoverage.Csv

section

variable {rows : List (List Text)} {row : List Text} {f rest : Text}

/-- A field without special characters is read as it stands. -/
theorem parseFrom_plain {t : Text} (h : t.any needsQuotes = false) :
    parseFrom false ⟨rows, row, f⟩ (t ++ rest) =
      parseFrom false ⟨rows, row, t.reverse ++ f⟩ rest := by
  induction t generalizing f with
  | nil => rfl
  | cons c t ih =>
    simp only [List.any_cons, Bool.or_eq_false_iff, needsQuotes, beq_eq_false_iff_ne] at h
    obtain ⟨⟨⟨⟨hcomma, hquote⟩, hline⟩, hreturn⟩, ht⟩ := h
    rw [List.cons_append, parseFrom]
    simp only [beq_iff_eq, hquote, hcomma, hreturn, hline, if_false, Reading.push]
    rw [ih (by simpa [needsQuotes] using ht), List.reverse_cons, List.append_assoc,
      List.singleton_append]

/-- Between quotes a field is read with its quotes halved. -/
theorem parseFrom_doubleQuotes (hrest : rest.head? ≠ some '"') (t : Text) :
    parseFrom true ⟨rows, row, f⟩ (doubleQuotes t ++ '"' :: rest) =
      parseFrom false ⟨rows, row, t.reverse ++ f⟩ rest := by
  induction t generalizing f with
  | nil =>
    cases rest with
    | nil => rfl
    | cons c rest =>
      have hc : c ≠ '"' := fun h => hrest (by rw [h]; rfl)
      rw [doubleQuotes, List.nil_append, parseFrom]
      · simp
      · intro u _ hu
        exact hc (List.cons.inj hu).1
  | cons c t ih =>
    rw [doubleQuotes, List.reverse_cons, List.append_assoc, List.singleton_append]
    by_cases hc : c = '"'
    · subst hc
      rw [if_pos (beq_self_eq_true _), List.cons_append, List.cons_append, parseFrom]
      exact ih
    · rw [if_neg (by simpa using hc), List.cons_append, parseFrom]
      · rw [if_neg (by simpa using hc)]
        exact ih
      · exact fun _ h _ => hc h

theorem parseFrom_escape (hrest : rest.head? ≠ some '"') (field : Text) :
    parseFrom false ⟨rows, row, []⟩ (escape field ++ rest) =
      parseFrom false ⟨rows, row, field.reverse⟩ rest := by
  unfold escape
  split
  · have hquoted : parseFrom true ⟨rows, row, []⟩ (doubleQuotes field ++ '"' :: rest) =
        parseFrom false ⟨rows, row, field.reverse⟩ rest := by
      rw [parseFrom_doubleQuotes hrest field, List.append_nil]
    rw [List.append_assoc, List.append_assoc]
    change parseFrom false _ ('"' :: (doubleQuotes field ++ '"' :: rest)) = _
    rw [parseFrom]
    exact hquoted
  · rename_i hplain
    rw [parseFrom_plain (Bool.eq_false_iff.mpr hplain), List.append_nil]

theorem parseFrom_renderRow {fields : List Text} (h : fields ≠ []) :
    parseFrom false ⟨rows, row, []⟩ (renderRow fields ++ rest) =
      parseFrom false ⟨(row.reverse ++ fields) :: rows, [], []⟩ rest := by
  induction fields generalizing row with
  | nil => exact absurd rfl h
  | cons field fields ih =>
    cases fields with
    | nil =>
      change parseFrom false _ (escape field ++ ['\n'] ++ rest) = _
      rw [List.append_assoc, List.singleton_append, parseFrom_escape (by simp) field, parseFrom]
      simp [Reading.endRow]
    | cons next fields =>
      have htext : renderRow (field :: next :: fields) ++ rest =
          escape field ++ ',' :: (renderRow (next :: fields) ++ rest) := by
        simp [renderRow, Text.joinWith]
      rw [htext, parseFrom_escape (by simp) field, parseFrom]
      rw [Reading.endField, ih (List.cons_ne_nil _ _)]
      simp

theorem parseFrom_renderRows {more : List (List Text)} (h : ∀ row ∈ more, row ≠ []) :
    parseFrom false ⟨rows, [], []⟩ (renderRows more) = rows.reverse ++ more := by
  induction more generalizing rows with
  | nil => simp [renderRows, parseFrom, Reading.finish]
  | cons row more ih =>
    have htext : renderRows (row :: more) = renderRow row ++ renderRows more := by simp [renderRows]
    rw [htext, parseFrom_renderRow (h row List.mem_cons_self),
      ih fun r hr => h r (List.mem_cons_of_mem _ hr)]
    simp

theorem parse_renderRows (h : ∀ row ∈ rows, row ≠ []) : parse (renderRows rows) = rows := by
  rw [parse, parseFrom_renderRows h, List.reverse_nil, List.nil_append]

/-- The row that is read where a row was written: an empty row has one empty field. -/
def readRow : List Text → List Text
  | [] => [[]]
  | field :: fields => field :: fields

theorem readRow_eq_self_iff : readRow row = row ↔ row ≠ [] := by
  cases row <;> simp [readRow]

theorem renderRow_readRow (row : List Text) : renderRow (readRow row) = renderRow row := by
  cases row <;> rfl

/-- All rows are read back, the empty ones with one empty field. -/
theorem parse_renderRows_eq_map (rows : List (List Text)) :
    parse (renderRows rows) = rows.map readRow := by
  have hwritten : renderRows (rows.map readRow) = renderRows rows := by
    rw [renderRows, List.map_map]
    exact congrArg List.flatten (List.map_congr_left fun row _ => renderRow_readRow row)
  have hne : ∀ row ∈ rows.map readRow, row ≠ [] := by
    intro row hrow
    obtain ⟨written, -, rfl⟩ := List.mem_map.mp hrow
    cases written <;> exact List.cons_ne_nil _ _
  rw [← hwritten, parse_renderRows hne]

end

section

variable {columns : List Column} {index : Nat} {report : Text}

/-- The rows of a report that belong to a path. -/
def rowsOf (columns : List Column) (path report : Text) : List (List Text) :=
  match columns.findIdx? (· == .path) with
  | some index => (parse report).tail.filter (belongsTo [path] index)
  | none => []

/-- The text is a report in the given columns. -/
def IsReport (columns : List Column) (report : Text) : Prop :=
  ∃ rows, report = renderRows (headerRow columns :: rows) ∧
    ∀ row ∈ rows, row.length = columns.length

theorem exists_index (h : Column.path ∈ columns) :
    ∃ index, columns.findIdx? (· == .path) = some index ∧ columns[index]? = some .path := by
  cases hindex : columns.findIdx? (· == .path) with
  | none => exact absurd (List.findIdx?_eq_none_iff.mp hindex _ h) (by simp)
  | some index =>
    obtain ⟨hlt, hpath, -⟩ := List.findIdx?_eq_some_iff_getElem.mp hindex
    exact ⟨index, rfl, by rw [List.getElem?_eq_getElem hlt, eq_of_beq hpath]⟩

theorem belongsTo_recordRow (h : columns[index]? = some .path) (paths : List Text) (r : Record) :
    belongsTo paths index (recordRow columns r) = paths.contains r.path := by
  simp [belongsTo, recordRow, h, Column.cell, Cell.display]

theorem filter_recordRow (h : columns[index]? = some .path) (path : Text)
    (records : List Record) :
    (records.map (recordRow columns)).filter (belongsTo [path] index) =
      (records.filter fun r => r.path == path).map (recordRow columns) := by
  rw [List.filter_map]
  congr 2
  funext r
  rw [Function.comp_apply, belongsTo_recordRow h, List.contains_cons, List.contains_nil,
    Bool.or_false]

/-- Of the rows that are not replaced, those of a path are all or none. -/
theorem filter_kept (path : Text) (replaced : List Text) (rows : List (List Text)) :
    (rows.filter fun row => !belongsTo replaced index row).filter (belongsTo [path] index) =
      if path ∈ replaced then [] else rows.filter (belongsTo [path] index) := by
  have hcell : ∀ row, belongsTo [path] index row = true → row[index]? = some path := by
    intro row hrow
    unfold belongsTo at hrow
    split at hrow
    · rename_i cell hcell
      rw [hcell, List.mem_singleton.mp (List.contains_iff_mem.mp hrow)]
    · cases hrow
  have hreplaced : ∀ row, belongsTo [path] index row = true →
      belongsTo replaced index row = replaced.contains path := by
    intro row hrow
    simp only [belongsTo, hcell row hrow]
  rw [List.filter_filter]
  split
  · rename_i hmem
    rw [List.filter_eq_nil_iff]
    intro row _ hboth
    rw [Bool.and_eq_true] at hboth
    rw [hreplaced row hboth.1, List.contains_iff_mem.mpr hmem] at hboth
    exact absurd hboth.2 (by simp)
  · rename_i hmem
    have hnot : replaced.contains path = false := by simpa using hmem
    refine List.filter_congr fun row _ => ?_
    by_cases hrow : belongsTo [path] index row = true
    · rw [hreplaced row hrow, hnot, hrow]
      rfl
    · rw [Bool.eq_false_iff.mpr hrow]
      rfl

theorem length_recordRow (r : Record) : (recordRow columns r).length = columns.length :=
  List.length_map _

theorem isReport_render (records : List Record) : IsReport columns (render columns records) := by
  refine ⟨_, rfl, fun row hrow => ?_⟩
  obtain ⟨r, -, rfl⟩ := List.mem_map.mp hrow
  exact length_recordRow r

theorem parse_report (hcolumns : columns ≠ []) {rows : List (List Text)}
    (hrows : ∀ row ∈ rows, row.length = columns.length) :
    parse (renderRows (headerRow columns :: rows)) = headerRow columns :: rows := by
  have hpos := List.length_pos_iff.mpr hcolumns
  refine parse_renderRows fun row hrow => List.length_pos_iff.mp ?_
  rcases List.mem_cons.mp hrow with rfl | hrow
  · simpa [headerRow] using hpos
  · rw [hrows row hrow]
    exact hpos

theorem parse_render (h : columns ≠ []) (records : List Record) :
    parse (render columns records) = headerRow columns :: records.map (recordRow columns) := by
  refine parse_report h fun row hrow => ?_
  obtain ⟨r, -, rfl⟩ := List.mem_map.mp hrow
  exact length_recordRow r

/-- Rows are read back as they were written exactly if each of them has a field, whatever characters
the fields hold. So a report is read back as its header and the displayed cells of its records
exactly if it has a column. -/
theorem parse_written_iff :
    (∀ rows, parse (renderRows rows) = rows ↔ ∀ row ∈ rows, row ≠ []) ∧
      ∀ columns records,
        parse (render columns records) = headerRow columns :: records.map (recordRow columns) ↔
          columns ≠ [] := by
  have hrows : ∀ rows, parse (renderRows rows) = rows ↔ ∀ row ∈ rows, row ≠ [] := by
    intro rows
    calc parse (renderRows rows) = rows
      _ ↔ rows.map readRow = rows.map id := by rw [parse_renderRows_eq_map, List.map_id]
      _ ↔ ∀ row ∈ rows, readRow row = row := List.map_inj_left
      _ ↔ ∀ row ∈ rows, row ≠ [] := forall₂_congr fun _ _ => readRow_eq_self_iff
  refine ⟨hrows, fun columns records => ⟨fun h => ?_, fun h => parse_render h records⟩⟩
  rintro rfl
  exact (hrows _).mp h _ List.mem_cons_self rfl

/-- The rows of a new report that belong to a path are those of its records. -/
theorem rowsOf_render (h : Column.path ∈ columns) (path : Text) (records : List Record) :
    rowsOf columns path (render columns records) =
      (records.filter fun r => r.path == path).map (recordRow columns) := by
  obtain ⟨index, hindex, hpath⟩ := exists_index h
  have hrows : ∀ row ∈ records.map (recordRow columns), row.length = columns.length := by
    intro row hrow
    obtain ⟨r, -, rfl⟩ := List.mem_map.mp hrow
    exact length_recordRow r
  simp only [rowsOf, hindex, render, parse_report (List.ne_nil_of_mem h) hrows, List.tail_cons]
  exact filter_recordRow hpath path records

/-- Merging into a report gives a report, in which the rows of a path are those of the new records
behind the old ones, unless these are replaced. -/
theorem rowsOf_merge (h : Column.path ∈ columns) (hreport : IsReport columns report)
    (records : List Record) (replaced : List Text) :
    IsReport columns (merge report columns records replaced) ∧
      ∀ path, rowsOf columns path (merge report columns records replaced) =
        (if path ∈ replaced then [] else rowsOf columns path report) ++
          (records.filter fun r => r.path == path).map (recordRow columns) := by
  obtain ⟨index, hindex, hpath⟩ := exists_index h
  obtain ⟨rows, rfl, hrows⟩ := hreport
  have hne := List.ne_nil_of_mem h
  have hmerge : merge (renderRows (headerRow columns :: rows)) columns records replaced =
      renderRows (headerRow columns :: ((rows.filter fun row => !belongsTo replaced index row) ++
        records.map (recordRow columns))) := by
    simp only [merge, parse_report hne hrows, hindex, bne_self_eq_false, Bool.false_eq_true,
      if_false, List.cons_append]
  have hall : ∀ row ∈ (rows.filter fun row => !belongsTo replaced index row) ++
      records.map (recordRow columns), row.length = columns.length := by
    intro row hrow
    rcases List.mem_append.mp hrow with hrow | hrow
    · exact hrows row (List.mem_filter.mp hrow).1
    · obtain ⟨r, -, rfl⟩ := List.mem_map.mp hrow
      exact length_recordRow r
  rw [hmerge]
  refine ⟨⟨_, rfl, hall⟩, fun path => ?_⟩
  simp only [rowsOf, hindex, parse_report hne hall, parse_report hne hrows, List.tail_cons,
    List.filter_append, filter_recordRow hpath, filter_kept]

end

end DocCoverage.Csv
