import DocCoverage.Proofs.Json.Values
import DocCoverage.Report.JsonReport

/-!
# Merging the same records again

A JSON report that is merged with the records it was just merged with should not change. It does not
when the path is among the selected columns and the numbers of the kept objects that are no integers
last. Without a path the objects of the records are not known again, so they are added once more
with every merge; and a number that is read back as another one is written as that.
-/
namespace DocCoverage

/-- A count fits 64 bits. -/
def Cell.Fits : Cell → Prop
  | .count n => n ≤ Json.maxSignificand
  | _ => True

/-- The counts of the record fit 64 bits. -/
def Record.Fits (r : Record) : Prop := ∀ c : Column, (c.cell r).Fits

namespace JsonReport

open Json

/-- The objects of an existing report that the records of the replaced paths leave. -/
def kept (existing : Text) (replaced : List Text) : List Members :=
  match parse existing with
  | .error _ => []
  | .ok old => old.filter fun ms => !belongsTo replaced ms

/-- An object that can stand in a report. -/
def Fit (ms : Members) : Prop := WellFormed (nestLimit - 1) (.object ms)

section

variable {columns : List Column} {records : List Record} {existing : Text} {replaced : List Text}
  {objects others : List Members} {ms es : Members} {r : Record}

theorem merge_eq (existing : Text) (columns : List Column) (records : List Record)
    (replaced : List Text) :
    merge existing columns records replaced =
      renderObjects (kept existing replaced ++ records.map (ofRecord columns)) := by
  unfold merge kept
  cases parse existing <;> rfl

theorem fit_iff : Fit ms ↔ Text.Increasing ms ∧ ∀ m ∈ ms, WellFormed (nestLimit - 2) m.2 := Iff.rfl

/-! ## Reading a report back -/

theorem readsBack_fuelFor {levels : Nat} {v : Json} (hv : WellFormed levels v) (level : Nat) :
    ReadsBack (fun _ t => readValue (fuelFor t) levels t) level v v.reread := by
  intro n t rest ht _ hrest
  refine readsBack_value hv level _ t rest ht ?_ hrest
  have hlen := (skipSpace_suffix t).length_le
  rw [ht, List.length_append] at hlen
  unfold fuelFor
  omega

theorem readsBack_object (h : Fit ms) (level : Nat) :
    ReadsBack (fun _ => readMap fun t => readValue (fuelFor t) (nestLimit - 2) t) level
      (.object ms) (rereadMembers ms) := by
  obtain ⟨hkeys, hvalues⟩ := fit_iff.mp h
  intro n t rest ht _ _
  rw [render_members_append] at ht
  have hlen : (membersFrom false (level + 1) ms).length <
      (membersFrom false (level + 1) ms ++ (closing level ms ++ '\x7d' :: rest)).length + 1 := by
    rw [List.length_append]
    omega
  have hmembers := membersWith_members (skipSpace_closing (c := '\x7d') rfl level ms rest) ms []
    (fun m hm => readsBack_fuelFor (hvalues m hm) (level + 1)) false _ hlen
  dsimp only
  rw [readMap, ht]
  change readEntries _ _ [] false _ = _
  rw [readEntries_eq, hmembers, rereadMembers_eq]
  cases hread : ms.mapM (inMember reread) with
  | error e => rfl
  | ok es => simp only [Except.map, foldl_bind_of_mapM_inMember hread hkeys]

/-- A report of objects that fit is read back, up to its numbers. -/
theorem parse_renderObjects (h : ∀ ms ∈ objects, Fit ms) :
    parse (renderObjects objects) = objects.mapM rereadMembers := by
  have htext : skipSpace (renderObjects objects) = '[' ::
      (itemsFrom false 1 (objects.map Json.object) ++
        (closing 0 (objects.map Json.object) ++ ']' :: ['\n'])) := by
    exact (skipSpace_render 0 _ ['\n']).trans (render_array_append 0 _ ['\n'])
  have hlen : (itemsFrom false 1 (objects.map Json.object)).length <
      (itemsFrom false 1 (objects.map Json.object) ++
        (closing 0 (objects.map Json.object) ++ ']' :: ['\n'])).length + 1 := by
    rw [List.length_append]
    omega
  have hclose := skipSpace_closing (c := ']') rfl 0 (objects.map Json.object) ['\n']
  have hitems := itemsWith_items hclose objects
    (fun ms hms => readsBack_object (h ms hms) 1) false _ hlen
  rw [parse, readList, htext]
  change finish (readAll _ _ false _) = _
  rw [readAll_eq, hitems]
  cases objects.mapM rereadMembers <;> rfl

theorem fit_of_parse {t : Text} (h : parse t = .ok objects) : ∀ ms ∈ objects, Fit ms := by
  obtain ⟨⟨os, u⟩, hlist, hend⟩ := bind_eq_ok_iff.mp h
  obtain rfl : os = objects := by
    dsimp only at hend
    split at hend
    · exact Except.ok.inj hend
    · cases hend
  unfold readList at hlist
  split at hlist
  · rw [readAll_eq] at hlist
    refine of_mem_itemsWith (P := Fit) (fun _ t ms rest hms => ?_) hlist
    unfold readMap at hms
    split at hms
    · rw [readEntries_eq] at hms
      exact fit_iff.mpr (of_mem_membersWith (fun _ _ _ _ hv => wellFormed_of_readValue hv) hms
        List.Pairwise.nil (List.forall_mem_nil _))
    · cases hms
  · cases hlist

theorem fit_of_mem_kept : ∀ ms ∈ kept existing replaced, Fit ms := by
  unfold kept
  split
  · exact List.forall_mem_nil _
  · rename_i old h
    exact fun ms hms => fit_of_parse h ms (List.mem_of_mem_filter hms)

/-! ## The objects of records -/

theorem mem_ofRecord {m : Text × Json} (h : m ∈ ofRecord columns r) :
    ∃ c ∈ columns, m = (c.header, cellValue (c.cell r)) := by
  have hfold : ∀ es : Members,
      m ∈ columns.foldl (fun ms c => Text.bind c.header (cellValue (c.cell r)) ms) es →
        (∃ c ∈ columns, m = (c.header, cellValue (c.cell r))) ∨ m ∈ es := by
    clear h
    induction columns with
    | nil => exact fun es hm => Or.inr hm
    | cons c columns ih =>
      intro es hm
      rcases ih _ hm with ⟨d, hd, rfl⟩ | hm
      · exact Or.inl ⟨d, List.mem_cons_of_mem c hd, rfl⟩
      · exact (Text.mem_of_mem_bind hm).imp_left fun h => ⟨c, List.mem_cons_self, h⟩
  exact (hfold [] h).resolve_right List.not_mem_nil

theorem increasing_ofRecord (columns : List Column) (r : Record) :
    Text.Increasing (ofRecord columns r) := by
  have hfold : ∀ es : Members, Text.Increasing es → Text.Increasing
      (columns.foldl (fun ms c => Text.bind c.header (cellValue (c.cell r)) ms) es) := by
    induction columns with
    | nil => exact fun es hes => hes
    | cons c columns ih => exact fun es hes => ih _ (hes.bind _ _)
  exact hfold [] List.Pairwise.nil

theorem header_eq_path_iff {c : Column} : Column.header .path = c.header ↔ .path = c := by
  cases c <;> decide

/-- The object of a record names its path if the path is selected. -/
theorem lookup_ofRecord (columns : List Column) (r : Record) :
    (ofRecord columns r).lookup (Column.header .path) =
      if .path ∈ columns then some (.text r.path) else none := by
  have hfold : ∀ es : Members,
      (columns.foldl (fun ms c => Text.bind c.header (cellValue (c.cell r)) ms) es).lookup
        (Column.header .path) =
      if .path ∈ columns then some (.text r.path) else es.lookup (Column.header .path) := by
    induction columns with
    | nil => exact fun es => rfl
    | cons c columns ih =>
      intro es
      rw [List.foldl_cons, ih, Text.lookup_bind]
      by_cases hpath : Column.path ∈ columns
      · simp [hpath]
      · by_cases hc : Column.path = c
        · subst hc
          simp [hpath, Column.cell, cellValue]
        · simp [hpath, hc, header_eq_path_iff]
  exact hfold []

theorem belongsTo_ofRecord (h : r.path ∈ replaced) :
    belongsTo replaced (ofRecord columns r) = decide (Column.path ∈ columns) := by
  rw [belongsTo, lookup_ofRecord]
  by_cases hpath : Column.path ∈ columns
  · rw [if_pos hpath]
    simp [hpath, h]
  · rw [if_neg hpath]
    simp [hpath]

theorem wellFormed_cellValue {c : Cell} (h : c.Fits) :
    WellFormed (nestLimit - 2) (cellValue c) := by
  cases c with
  | text | flag => trivial
  | count n => exact h
  | list ts =>
    intro v hv
    obtain ⟨t, -, rfl⟩ := List.mem_map.mp hv
    trivial

theorem reread_cellValue {c : Cell} (h : c.Fits) : (cellValue c).reread = .ok (cellValue c) := by
  cases c with
  | text | flag => rfl
  | count n => rw [cellValue, reread, JsonNumber.reread_of_fits (n := .nat n) h rfl, Except.map]
  | list ts =>
    have htexts : (ts.map Json.text).mapM reread = .ok (ts.map Json.text) := by
      rw [mapM_eq_ok_iff, List.forall₂_same]
      intro v hv
      obtain ⟨t, -, rfl⟩ := List.mem_map.mp hv
      rfl
    rw [cellValue, reread, rereadItems_eq, htexts, Except.map]

theorem fit_ofRecord (columns : List Column) (h : r.Fits) : Fit (ofRecord columns r) := by
  refine fit_iff.mpr ⟨increasing_ofRecord columns r, fun m hm => ?_⟩
  obtain ⟨c, -, rfl⟩ := mem_ofRecord hm
  exact wellFormed_cellValue (h c)

/-- The object of a record is read back as it is. -/
theorem rereadMembers_ofRecord (h : r.Fits) :
    rereadMembers (ofRecord columns r) = .ok (ofRecord columns r) := by
  rw [rereadMembers_eq, mapM_eq_ok_iff, List.forall₂_same]
  intro m hm
  obtain ⟨c, -, rfl⟩ := mem_ofRecord hm
  rw [inMember, reread_cellValue (h c), Except.map]

theorem mapM_ofRecord (h : ∀ r ∈ records, r.Fits) :
    (records.map (ofRecord columns)).mapM rereadMembers = .ok (records.map (ofRecord columns)) := by
  rw [mapM_eq_ok_iff, List.forall₂_same]
  intro ms hms
  obtain ⟨r, hr, rfl⟩ := List.mem_map.mp hms
  exact rereadMembers_ofRecord (h r hr)

/-! ## Merging again -/

/-- The paths of the records. -/
def paths (records : List Record) : List Text := records.map fun r => r.path

/-- An object belongs to the paths that it belonged to before it was read. -/
theorem belongsTo_of_reread (h : rereadMembers ms = .ok es) :
    belongsTo replaced es = belongsTo replaced ms := by
  rw [rereadMembers_eq, mapM_eq_ok_iff] at h
  unfold belongsTo
  induction h with
  | nil => rfl
  | cons hm _ ih =>
    obtain ⟨w, hw, rfl⟩ := map_eq_ok_iff.mp hm
    rename_i m _ _ _
    obtain ⟨k, v⟩ := m
    rw [List.lookup_cons, List.lookup_cons]
    cases Column.header .path == k with
    | false => exact ih
    | true =>
      cases v with
      | null | bool | text =>
        obtain rfl := Except.ok.inj hw
        rfl
      | number | array | object =>
        obtain ⟨x, -, rfl⟩ := map_eq_ok_iff.mp hw
        rfl

/-- What is kept of a report is read of the objects that do not belong to the replaced paths. -/
theorem mapM_filter (h : ∀ ms ∈ objects, Fit ms) (hread : objects.mapM rereadMembers = .ok others)
    (replaced : List Text) :
    (objects.filter fun ms => !belongsTo replaced ms).mapM rereadMembers =
      .ok (kept (renderObjects objects) replaced) := by
  rw [kept, parse_renderObjects h, hread]
  rw [mapM_eq_ok_iff] at hread ⊢
  refine List.rel_filter (fun ms es hms => ?_) hread
  simp only [belongsTo_of_reread hms]

theorem mapM_reread_object (objects : List Members) :
    (objects.map Json.object).mapM reread =
      (objects.mapM rereadMembers).map (List.map Json.object) := by
  induction objects with
  | nil => rfl
  | cons ms objects ih =>
    rw [List.map_cons, List.mapM_cons, List.mapM_cons, ih, reread]
    cases rereadMembers ms with
    | error e => rfl
    | ok es => cases objects.mapM rereadMembers <;> rfl

/-- A report is read back and written as it was exactly if its numbers that are no integers last. -/
theorem objects_last_iff (h : ∀ ms ∈ objects, Fit ms) :
    (∃ others, objects.mapM rereadMembers = .ok others ∧
        renderObjects others = renderObjects objects) ↔
      ∀ ms ∈ objects, ∀ n ∈ (Json.object ms).numbers, n.isReal = true → n.lasts = true := by
  have hformed : WellFormed nestLimit (.array (objects.map .object)) := by
    intro v hv
    obtain ⟨ms, hms, rfl⟩ := List.mem_map.mp hv
    exact h ms hms
  have hlasts := lasts_iff hformed 0
  rw [numbers, numbersOfItems_eq, List.forall_mem_flatMap, List.forall_mem_map] at hlasts
  rw [← hlasts, Lasts, reread, rereadItems_eq, mapM_reread_object]
  constructor
  · rintro ⟨others, hread, htext⟩
    exact ⟨_, map_eq_ok_iff.mpr ⟨_, map_eq_ok_iff.mpr ⟨others, hread, rfl⟩, rfl⟩,
      List.append_cancel_right htext⟩
  · rintro ⟨w, hw, htext⟩
    obtain ⟨vs, hvs, rfl⟩ := map_eq_ok_iff.mp hw
    obtain ⟨others, hread, rfl⟩ := map_eq_ok_iff.mp hvs
    exact ⟨others, hread, congrArg (· ++ "\n".toList) htext⟩

theorem filter_ofRecord (columns : List Column) (records : List Record) :
    (records.map (ofRecord columns)).filter (fun ms => !belongsTo (paths records) ms) =
      if Column.path ∈ columns then [] else records.map (ofRecord columns) := by
  have hbelongs : ∀ ms ∈ records.map (ofRecord columns),
      belongsTo (paths records) ms = decide (Column.path ∈ columns) := by
    intro ms hms
    obtain ⟨r, hr, rfl⟩ := List.mem_map.mp hms
    exact belongsTo_ofRecord (List.mem_map.mpr ⟨r, hr, rfl⟩)
  split
  · rename_i hpath
    exact List.filter_eq_nil_iff.mpr fun ms hms => by simp [hbelongs ms hms, hpath]
  · rename_i hpath
    exact List.filter_eq_self.mpr fun ms hms => by simp [hbelongs ms hms, hpath]

theorem filter_kept (existing : Text) (replaced : List Text) :
    (kept existing replaced).filter (fun ms => !belongsTo replaced ms) =
      kept existing replaced := by
  unfold kept
  cases parse existing with
  | error e => rfl
  | ok old => simp

/-- New objects that are read back as they are stand once behind the kept ones, when they are merged
again, exactly if they all belong to the replaced paths; and the kept ones stay as they were written
exactly if their numbers that are no integers last. -/
theorem render_kept_iff {old new : List Members} (hold : ∀ ms ∈ old, Fit ms)
    (hnew : ∀ ms ∈ new, Fit ms) (hread : new.mapM rereadMembers = .ok new)
    (hstay : old.filter (fun ms => !belongsTo replaced ms) = old) :
    renderObjects (kept (renderObjects (old ++ new)) replaced ++ new) =
        renderObjects (old ++ new) ↔
      new.filter (fun ms => !belongsTo replaced ms) = [] ∧
        ∀ ms ∈ old, ∀ n ∈ (Json.object ms).numbers, n.isReal = true → n.lasts = true := by
  have hfit : ∀ ms ∈ old ++ new, Fit ms := List.forall_mem_append.mpr ⟨hold, hnew⟩
  -- the new objects do not change, so those kept are what is read of the old ones
  have hsame : ∀ {others}, (old ++ new).mapM rereadMembers = .ok others →
      new.filter (fun ms => !belongsTo replaced ms) = [] →
      kept (renderObjects (old ++ new)) replaced ++ new = others := by
    intro others hothers hnone
    have hkept := mapM_filter hfit hothers replaced
    rw [List.filter_append, hstay, hnone, List.append_nil] at hkept
    rw [List.mapM_append, hkept, hread] at hothers
    exact Except.ok.inj hothers
  constructor
  · intro htext
    have htwice := congrArg parse htext
    rw [parse_renderObjects (List.forall_mem_append.mpr ⟨fit_of_mem_kept, hnew⟩),
      parse_renderObjects hfit] at htwice
    cases hothers : (old ++ new).mapM rereadMembers with
    | error e =>
      have hnothing : kept (renderObjects (old ++ new)) replaced = [] := by
        rw [kept, parse_renderObjects hfit, hothers]
      rw [hnothing, List.nil_append, hread, hothers] at htwice
      cases htwice
    | ok others =>
      have hnone : new.filter (fun ms => !belongsTo replaced ms) = [] := by
        have hkept := mapM_filter hfit hothers replaced
        rw [List.filter_append, hstay] at hkept
        rw [hothers] at htwice
        have hlengths := (mapM_eq_ok_iff.mp hkept).length_eq
        have hfirst := (mapM_eq_ok_iff.mp hothers).length_eq
        have hsecond := (mapM_eq_ok_iff.mp htwice).length_eq
        rw [List.length_append] at hlengths hfirst hsecond
        exact List.eq_nil_of_length_eq_zero (by omega)
      rw [hsame hothers hnone] at htext
      exact ⟨hnone, fun ms hms =>
        (objects_last_iff hfit).mp ⟨others, hothers, htext⟩ ms (List.mem_append_left new hms)⟩
  · rintro ⟨hnone, hlast⟩
    have hlastNew := (objects_last_iff hnew).mp ⟨new, hread, rfl⟩
    obtain ⟨others, hothers, htext⟩ :=
      (objects_last_iff hfit).mpr (List.forall_mem_append.mpr ⟨hlast, hlastNew⟩)
    rw [hsame hothers hnone, htext]

/-- Merging the same records again, with the paths that are theirs, gives the same report exactly if
the path is selected, unless there are no records, and the numbers of the kept objects last that are
no integers. -/
theorem merge_again_iff (existing : Text) (columns : List Column) (records : List Record)
    (h : ∀ r ∈ records, r.Fits) :
    merge (merge existing columns records (paths records)) columns records (paths records) =
        merge existing columns records (paths records) ↔
      (records = [] ∨ Column.path ∈ columns) ∧
        ∀ ms ∈ kept existing (paths records), ∀ n ∈ (Json.object ms).numbers,
          n.isReal = true → n.lasts = true := by
  have hnew : ∀ ms ∈ records.map (ofRecord columns), Fit ms := by
    intro ms hms
    obtain ⟨r, hr, rfl⟩ := List.mem_map.mp hms
    exact fit_ofRecord columns (h r hr)
  rw [merge_eq existing, merge_eq, render_kept_iff fit_of_mem_kept hnew (mapM_ofRecord h)
    (filter_kept existing (paths records)), filter_ofRecord]
  by_cases hpath : Column.path ∈ columns <;> simp [hpath]

end

/-- The record of a file that could not be analysed. -/
def failedRecord : Record := .unanalysed "a.py" "boom"

/-- A report with an object of another file, which holds a number with a fraction, and with an old
object of the record's file. -/
def mixedReport : Text :=
  "[\x7b\"path\": \"b.py\", \"score\": 0.1\x7d, \x7b\"path\": \"a.py\"\x7d]"

theorem failedRecord_fits : ∀ r ∈ [failedRecord], r.Fits := by
  rw [List.forall_mem_singleton]
  intro c
  cases c <;> first | trivial | exact Nat.zero_le _

/-- With the path selected the mixed report is the same after the second merge. -/
theorem merge_again_iff_mixed : (∀ r ∈ [failedRecord], r.Fits) ∧
    merge (merge mixedReport [.name, .path] [failedRecord] (paths [failedRecord])) [.name, .path]
        [failedRecord] (paths [failedRecord]) =
      merge mixedReport [.name, .path] [failedRecord] (paths [failedRecord]) :=
  ⟨failedRecord_fits, (merge_again_iff mixedReport [.name, .path] [failedRecord]
    failedRecord_fits).mpr ⟨Or.inr (by decide), by decide +kernel⟩⟩

/-- Without the path the second merge adds the object of the record once more. -/
theorem merge_again_pathless :
    merge (merge "[]" [.name] [failedRecord] (paths [failedRecord])) [.name] [failedRecord]
        (paths [failedRecord]) ≠
      merge "[]" [.name] [failedRecord] (paths [failedRecord]) := by
  decide +kernel

end JsonReport

end DocCoverage
