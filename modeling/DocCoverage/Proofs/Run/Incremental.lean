import DocCoverage.Proofs.Report.Rows
import DocCoverage.Proofs.Run.Skipping
import Mathlib.Data.List.Nodup

/-!
# Reports over many runs

The same command is run again and again, with a hash file and a report in rows that were not there
at first, while other files change in between. Of each path the report shows the records of the last
result that was not skipped. For a file that is skipped because its content was analysed before,
these are the records that a run without a store gives now, unless the last result was a failure: a
failed file is not forgotten in the store, so when its old content comes back it is skipped, and the
report keeps the failure.
-/
namespace DocCoverage.Command

/-- The last result for a path that is not a skip; the latest results stand first. -/
def lastAttempt (done : List FileResult) (path : Text) : Option FileResult :=
  done.find? fun r => r.path == path && !Summary.isUnchanged r

/-- The records of the last result for a path. -/
def lastRecords (done : List FileResult) (path : Text) : List Record :=
  ((lastAttempt done path).map recordsOf).getD []

section

variable {gs : GrammarSet} {store : Option HashStore} {settings : Settings} {fs : FileTree}
  {rs done : List FileResult} {path : Text}

theorem isUnchanged_iff {r : FileResult} :
    Summary.isUnchanged r = true ↔ r.status = .unchanged := by
  obtain ⟨file, status⟩ := r
  cases status <;> simp [Summary.isUnchanged]

theorem path_of_recordsOf {r : FileResult} (h : runFile gs store settings fs path = .ok r) :
    ∀ record ∈ recordsOf r, record.path = r.path := by
  obtain ⟨hpath, hcases⟩ := runFile_cases h
  intro record hrecord
  unfold recordsOf at hrecord
  split at hrecord
  · rename_i hash coverage records hstatus
    rcases hcases with ⟨e, -, hfailed⟩ | ⟨content, -, ⟨-, hsame⟩ | ⟨-, hanalysed⟩⟩
    · rw [hstatus] at hfailed
      cases hfailed
    · rw [hstatus] at hsame
      cases hsame
    · rw [hstatus] at hanalysed
      obtain ⟨t, a, -, ha, -, -, rfl⟩ := analyseContent_eq_analysed.mp hanalysed
      obtain ⟨node, -, rfl⟩ := List.mem_map.mp hrecord
      rw [hpath]
      unfold analyze at ha
      split at ha
      · cases ha
      · rw [← Except.ok.inj ha]
        rfl
  · rw [List.mem_singleton.mp hrecord]
    rfl
  · cases hrecord

/-- Among distinct results the records of a path are those of its result. -/
theorem filter_records (hnodup : (rs.map (·.path)).Nodup)
    (hpaths : ∀ r ∈ rs, ∀ record ∈ recordsOf r, record.path = r.path) (path : Text) :
    (rs.flatMap recordsOf).filter (fun record => record.path == path) =
      ((rs.find? fun r => r.path == path).map recordsOf).getD [] := by
  induction rs with
  | nil => rfl
  | cons r rs ih =>
    rw [List.map_cons, List.nodup_cons] at hnodup
    have hrest := ih hnodup.2 fun s hs => hpaths s (List.mem_cons_of_mem _ hs)
    have hhere := hpaths r List.mem_cons_self
    rw [List.flatMap_cons, List.filter_append, hrest, List.find?_cons]
    by_cases hr : r.path = path
    · have hall : (recordsOf r).filter (fun record => record.path == path) = recordsOf r :=
        List.filter_eq_self.mpr fun record hrecord => by simp [hhere record hrecord, hr]
      have hnone : rs.find? (fun r => r.path == path) = none := by
        rw [List.find?_eq_none]
        intro s hs hspath
        exact hnodup.1 (List.mem_map.mpr ⟨s, hs, (eq_of_beq hspath).trans hr.symm⟩)
      simp [hall, hnone, hr]
    · have hnil : (recordsOf r).filter (fun record => record.path == path) = [] :=
        List.filter_eq_nil_iff.mpr fun record hrecord => by simp [hhere record hrecord, hr]
      have hne : (r.path == path) = false := by simpa using hr
      simp [hnil, hne]

/-- The result for a path is the only one among distinct ones. -/
theorem find?_of_path {r : FileResult} (hnodup : (rs.map (·.path)).Nodup) (hr : r ∈ rs)
    {q : FileResult → Bool} (hq : q r = true) (hpath : ∀ s, q s = true → s.path = r.path) :
    rs.find? q = some r := by
  cases hfind : rs.find? q with
  | none => exact absurd hq (List.find?_eq_none.mp hfind r hr)
  | some s =>
    have hs := List.mem_of_find?_eq_some hfind
    rw [List.inj_on_of_nodup_map hnodup hs hr (hpath s (List.find?_some hfind))]

/-- A run either has a result for a path that is not a skip, whose records it reports in place of
the old ones, or it has nothing to say about the path. -/
theorem reported_cases (hnodup : (rs.map (·.path)).Nodup)
    (hpaths : ∀ r ∈ rs, ∀ record ∈ recordsOf r, record.path = r.path) (path : Text) :
    (∃ r ∈ rs, r.path = path ∧ Summary.isUnchanged r = false ∧ path ∈ replacedBy rs ∧
      (rs.flatMap recordsOf).filter (fun record => record.path == path) = recordsOf r ∧
      ∀ done, lastAttempt (rs ++ done) path = some r) ∨
    (∀ r ∈ rs, r.path = path → Summary.isUnchanged r = true) ∧ path ∉ replacedBy rs ∧
      (rs.flatMap recordsOf).filter (fun record => record.path == path) = [] ∧
      ∀ done, lastAttempt (rs ++ done) path = lastAttempt done path := by
  have hrecords := filter_records hnodup hpaths path
  by_cases hany : ∃ r ∈ rs, r.path = path ∧ Summary.isUnchanged r = false
  · obtain ⟨r, hr, rfl, hstatus⟩ := hany
    refine Or.inl ⟨r, hr, rfl, hstatus, ?_, ?_, fun done => ?_⟩
    · exact List.mem_map.mpr ⟨r, List.mem_filter.mpr ⟨hr, by rw [hstatus]; rfl⟩, rfl⟩
    · rw [hrecords, find?_of_path hnodup hr (by simp) fun s hs => by simpa using hs]
      rfl
    · have hattempt : rs.find? (fun s => s.path == r.path && !Summary.isUnchanged s) = some r := by
        refine find?_of_path hnodup hr (by simp [hstatus]) fun s hs => ?_
        rw [Bool.and_eq_true, beq_iff_eq] at hs
        exact hs.1
      rw [lastAttempt, List.find?_append, hattempt]
      rfl
  · have hskipped : ∀ r ∈ rs, r.path = path → Summary.isUnchanged r = true := by
      intro r hr hpath
      by_contra hstatus
      exact hany ⟨r, hr, hpath, Bool.eq_false_iff.mpr hstatus⟩
    refine Or.inr ⟨hskipped, fun hmem => ?_, ?_, fun done => ?_⟩
    · obtain ⟨r, hr, hpath⟩ := List.mem_map.mp hmem
      obtain ⟨hr, hstatus⟩ := List.mem_filter.mp hr
      rw [hskipped r hr hpath] at hstatus
      cases hstatus
    · rw [hrecords]
      cases hfind : rs.find? (fun r => r.path == path) with
      | none => rfl
      | some r =>
        have hstatus := isUnchanged_iff.mp (hskipped r (List.mem_of_find?_eq_some hfind)
          (by simpa using List.find?_some hfind))
        rw [Option.map_some, Option.getD_some, recordsOf, hstatus]
    · have hattempt : rs.find? (fun s => s.path == path && !Summary.isUnchanged s) = none := by
        rw [List.find?_eq_none]
        intro r hr hboth
        rw [Bool.and_eq_true, beq_iff_eq] at hboth
        rw [hskipped r hr hboth.1] at hboth
        cases hboth.2
      rw [lastAttempt, List.find?_append, hattempt]
      rfl

/-- The last result for a file of the run is the one of the run, unless the run skipped it. -/
theorem lastAttempt_of_mem {r : FileResult} (hnodup : (rs.map (·.path)).Nodup)
    (hpaths : ∀ r ∈ rs, ∀ record ∈ recordsOf r, record.path = r.path) (hr : r ∈ rs) :
    (Summary.isUnchanged r = false ∧ ∀ done, lastAttempt (rs ++ done) r.path = some r) ∨
      r.status = .unchanged ∧
        ∀ done, lastAttempt (rs ++ done) r.path = lastAttempt done r.path := by
  rcases reported_cases hnodup hpaths r.path with
    ⟨q, hq, hpath, hstatus, -, -, hlast⟩ | ⟨hskipped, -, -, hlast⟩
  · obtain rfl := List.inj_on_of_nodup_map hnodup hq hr hpath
    exact Or.inl ⟨hstatus, hlast⟩
  · exact Or.inr ⟨isUnchanged_iff.mp (hskipped r hr rfl), hlast⟩

end

/-- The command keeps a hash file and a report in rows that name their path. -/
structure Reports (o : Options) (file report : Text) (columns : List Column) : Prop where
  hashFile : o.hashFile = some file
  target : o.report = some report
  format : Format.ofName (o.format.getD "csv") = .ok .csv
  selects : Column.select o.columns = .ok columns
  path : Column.path ∈ columns

/-- One run of the command without an error. Its grammars are the given ones, what it reads is among
the given contents, and the hash file and the report are two files. -/
structure Completes (lib : Pattern.Library) (clock : Clock) (gs : GrammarSet) (o : Options)
    (file report : Text) (contents : Set Bytes) (fs : FileTree) (time : Text) (rs : List FileResult)
    (after : FileTree) : Prop where
  done : ∃ answer, execute lib clock fs time o = ⟨after, .ok answer⟩
  results : ∃ p, plan lib fs o = .ok p ∧ p.grammars = gs ∧
    runFiles p.grammars p.store (o.settings clock) fs p.files = .ok rs
  reads : ∀ r ∈ rs, ∀ content, fs.read r.path = .ok content → content ∈ contents
  apart : ¬fs.Meets file report

/-- The results so far, the latest first, and the tree they led to. All runs go by one clock: the
scan of a text always takes the same time. -/
inductive History (lib : Pattern.Library) (clock : Clock) (gs : GrammarSet) (o : Options)
    (file report : Text) (contents : Set Bytes) : List FileResult → FileTree → Prop
  | start {fs : FileTree} (noStore : fs.entryAt? file = none)
      (noReport : fs.entryAt? report = none) : History lib clock gs o file report contents [] fs
  | edit {done : List FileResult} {fs fs' : FileTree}
      (before : History lib clock gs o file report contents done fs)
      (sameStore : fs'.entryAt? file = fs.entryAt? file)
      (sameReport : fs'.entryAt? report = fs.entryAt? report) :
      History lib clock gs o file report contents done fs'
  | run {done rs : List FileResult} {fs after : FileTree} {time : Text}
      (before : History lib clock gs o file report contents done fs)
      (completes : Completes lib clock gs o file report contents fs time rs after) :
      History lib clock gs o file report contents (rs ++ done) after

/-- What the store says about the results so far: of each path it has the last content that was
analysed, after which the file may only have failed. -/
def StoreAccounts (gs : GrammarSet) (settings : Settings) (contents : Set Bytes)
    (done : List FileResult) (s : HashStore) : Prop :=
  ∀ path e, s.get? path = some e → ∃ content ∈ contents, ∃ hash coverage records,
    analyseContent gs settings path content = .ok (.analysed hash coverage records) ∧
      e = .ofCoverage hash coverage ∧
      (lastAttempt done path = some ⟨path, .analysed hash coverage records⟩ ∨
        ∃ failure, lastAttempt done path = some ⟨path, .failed failure⟩)

/-- What the report says: of each path it has the records of the last result. -/
def ReportAccounts (columns : List Column) (done : List FileResult) : Option Entry → Prop
  | none => ∀ path, lastRecords done path = []
  | some e => ∃ text, e = .file (Utf8.encode text) ∧ Csv.IsReport columns text ∧
      ∀ path, Csv.rowsOf columns path text = (lastRecords done path).map (Csv.recordRow columns)

section

variable {lib : Pattern.Library} {clock : Clock} {gs : GrammarSet} {o : Options}
  {file report : Text} {contents : Set Bytes} {columns : List Column} {fs after : FileTree}
  {time : Text} {rs done : List FileResult}

/-- A run without an error, with all its steps. -/
theorem Completes.steps (h : Completes lib clock gs o file report contents fs time rs after)
    (ho : Reports o file report columns) :
    ∃ p s saved text, plan lib fs o = .ok p ∧ p.grammars = gs ∧ p.format = .csv ∧
      p.columns = columns ∧ HashStore.load fs file = .ok s ∧
      rs.map (·.path) = p.files ∧
      (∀ r ∈ rs, runFile gs (some s) (o.settings clock) fs r.path = .ok r) ∧
      fs.write file (Utf8.encode (rememberAll s rs).render) = .ok saved ∧
      Report.contentAt saved .csv (Report.targetPath saved time .csv report) columns
        (rs.flatMap recordsOf) (replacedBy rs) = .ok text ∧
      saved.write (Report.targetPath saved time .csv report) (Utf8.encode text) = .ok after := by
  obtain ⟨p, hp, hgs, hrs⟩ := h.results
  obtain ⟨answer, hdone⟩ := h.done
  obtain ⟨p', rs', saved, hp', hrs', hsaved, hdeliver, -⟩ := execute_eq_ok_iff.mp hdone
  obtain rfl := Except.ok.inj (hp.symm.trans hp')
  obtain rfl := Except.ok.inj (hrs.symm.trans hrs')
  obtain ⟨-, -, hformat, hcolumns, -⟩ := plan_eq_ok_iff.mp hp
  have hcsv : p.format = .csv := Except.ok.inj (hformat.symm.trans ho.format)
  have hcols : p.columns = columns := Except.ok.inj (hcolumns.symm.trans ho.selects)
  obtain ⟨s, hs, hstore⟩ := plan_store hp ho.hashFile
  obtain ⟨hpaths, hresults⟩ := runFiles_eq_ok_iff.mp hrs
  rw [hgs, hstore] at hresults
  have hwrite := saveStore_eq_ok ho.hashFile hstore hsaved
  rcases deliver_eq_ok hdeliver with ⟨hnone, -⟩ | ⟨target, text, htarget, htext, hreport⟩
  · rw [ho.target] at hnone
    cases hnone
  · obtain rfl := Option.some.inj (ho.target.symm.trans htarget)
    rw [hcsv, hcols] at htext
    rw [hcsv] at hreport
    exact ⟨p, s, saved, text, hp, hgs, hcsv, hcols, hs, hpaths, hresults, hwrite, htext, hreport⟩

/-- Remembering the results of a run accounts for them. -/
theorem StoreAccounts.rememberAll {store : Option HashStore} {settings : Settings} {s : HashStore}
    (hs : StoreAccounts gs settings contents done s) (hnodup : (rs.map (·.path)).Nodup)
    (hrs : ∀ r ∈ rs, runFile gs store settings fs r.path = .ok r)
    (hread : ∀ r ∈ rs, ∀ content, fs.read r.path = .ok content → content ∈ contents) :
    StoreAccounts gs settings contents (rs ++ done) (rememberAll s rs) := by
  intro path e he
  rcases reported_cases hnodup (fun r hr => path_of_recordsOf (hrs r hr)) path with
    ⟨r, hr, rfl, hstatus, -, -, hlast⟩ | ⟨hskipped, -, -, hlast⟩
  · rcases get?_rememberAll he with
      ⟨q, hq, hpath, hash, coverage, records, hanalysed, rfl⟩ | ⟨hold, hnone⟩
    · obtain rfl := List.inj_on_of_nodup_map hnodup hq hr hpath
      obtain ⟨-, ⟨err, -, hfailed⟩ | ⟨content, hcontent, ⟨-, hsame⟩ | ⟨-, hstatus'⟩⟩⟩ :=
        runFile_cases (hrs q hq)
      · rw [hanalysed] at hfailed
        cases hfailed
      · rw [hanalysed] at hsame
        cases hsame
      · rw [hanalysed] at hstatus'
        refine ⟨content, hread q hq content hcontent, hash, coverage, records, hstatus', rfl,
          Or.inl ?_⟩
        rw [hlast done, ← hanalysed]
    · -- neither skipped nor analysed, the file failed, and the store keeps its entry
      obtain ⟨content, hcontent, hash, coverage, records, hanalysed, rfl, -⟩ := hs r.path e hold
      refine ⟨content, hcontent, hash, coverage, records, hanalysed, rfl, Or.inr ?_⟩
      have hnot := hnone r hr rfl
      rw [hlast done]
      obtain ⟨file, status⟩ := r
      cases status with
      | analysed hash coverage records => cases hnot
      | unchanged => cases hstatus
      | failed failure => exact ⟨failure, rfl⟩
  · rw [hlast done]
    rcases get?_rememberAll he with
      ⟨q, hq, hpath, _, _, _, hanalysed, -⟩ | ⟨hold, -⟩
    · have hunchanged := isUnchanged_iff.mp (hskipped q hq hpath)
      rw [hanalysed] at hunchanged
      cases hunchanged
    · exact hs path e hold

/-- The text that a run writes says what the report said, with the new results in place. -/
theorem ReportAccounts.contentAt (ho : Reports o file report columns) {text : Text}
    (hreport : ReportAccounts columns done (fs.entryAt? report)) (hnodup : (rs.map (·.path)).Nodup)
    (hpaths : ∀ r ∈ rs, ∀ record ∈ recordsOf r, record.path = r.path)
    (htext : Report.contentAt fs .csv report columns (rs.flatMap recordsOf) (replacedBy rs) =
      .ok text) :
    ReportAccounts columns (rs ++ done) (some (.file (Utf8.encode text))) := by
  unfold Report.contentAt at htext
  cases hat : fs.entryAt? report with
  | none =>
    have hfile : ¬fs.isFile report = true := by
      rw [FileTree.isFile_iff, hat]
      exact fun ⟨_, h⟩ => nomatch h
    rw [hat] at hreport
    rw [if_neg hfile] at htext
    obtain rfl := Except.ok.inj htext
    refine ⟨_, rfl, Csv.isReport_render _, fun path => ?_⟩
    change Csv.rowsOf columns path (Csv.render columns (rs.flatMap recordsOf)) = _
    rw [Csv.rowsOf_render ho.path]
    rcases reported_cases hnodup hpaths path with ⟨r, -, -, -, -, hnew, hlast⟩ | ⟨-, -, hnew, hlast⟩
    · rw [hnew, lastRecords, hlast done]
      rfl
    · rw [hnew, lastRecords, hlast done, ← lastRecords, hreport path]
  | some e =>
    rw [hat] at hreport
    obtain ⟨old, rfl, hold, hrows⟩ := hreport
    have hread : fs.readText report = .ok old :=
      FileTree.readText_eq_ok_iff.mpr ⟨_, hat, Utf8.decode_encode old⟩
    rw [if_pos (FileTree.isFile_iff.mpr ⟨_, hat⟩), hread] at htext
    obtain rfl := Except.ok.inj htext
    obtain ⟨hnewReport, hnewRows⟩ :=
      Csv.rowsOf_merge ho.path hold (rs.flatMap recordsOf) (replacedBy rs)
    refine ⟨_, rfl, hnewReport, fun path => ?_⟩
    rw [Format.merge, hnewRows path, hrows path]
    rcases reported_cases hnodup hpaths path with
      ⟨r, -, -, -, hreplaced, hnew, hlast⟩ | ⟨-, hkept, hnew, hlast⟩
    · rw [if_pos hreplaced, hnew, lastRecords, hlast done]
      rfl
    · rw [if_neg hkept, hnew, lastRecords, lastRecords, hlast done, List.map_nil, List.append_nil]

/-- One run keeps both accounts, and leaves a report. -/
theorem Completes.accounts (h : Completes lib clock gs o file report contents fs time rs after)
    (ho : Reports o file report columns)
    (hstore : ∀ s, HashStore.load fs file = .ok s →
      StoreAccounts gs (o.settings clock) contents done s)
    (hreport : ReportAccounts columns done (fs.entryAt? report)) :
    (∀ s, HashStore.load after file = .ok s →
      StoreAccounts gs (o.settings clock) contents (rs ++ done) s) ∧
      ∃ e, after.entryAt? report = some e ∧ ReportAccounts columns (rs ++ done) (some e) := by
  obtain ⟨p, s, saved, text, hp, -, -, -, hs, hpaths, hresults, hsaved, htext, hwritten⟩ :=
    h.steps ho
  have hnodup : (rs.map (·.path)).Nodup := hpaths ▸ nodup_files hp
  have hkept : saved.entryAt? report = fs.entryAt? report :=
    FileTree.entryAt?_write_of_not_meets hsaved h.apart
  have htarget : Report.targetPath saved time .csv report = report := by
    unfold Report.targetPath
    rw [if_neg]
    rw [FileTree.isDirectory_iff, hkept]
    intro hdir
    rw [hdir] at hreport
    obtain ⟨text, hfile, -⟩ := hreport
    cases hfile
  rw [htarget] at htext hwritten
  have hapart : ¬saved.Meets report file := by
    rw [FileTree.meets_write hsaved]
    exact fun ⟨r, hr, hf⟩ => h.apart ⟨r, hf, hr⟩
  constructor
  · intro s' hs'
    rw [HashStore.load_congr (FileTree.entryAt?_write_of_not_meets hwritten hapart),
      HashStore.load_of_render (increasing_rememberAll (HashStore.increasing_load hs) rs)
        (FileTree.entryAt?_write_self hsaved)] at hs'
    obtain rfl := Except.ok.inj hs'
    exact (hstore s hs).rememberAll hnodup hresults h.reads
  · exact ⟨_, FileTree.entryAt?_write_self hwritten, ReportAccounts.contentAt ho (hkept ▸ hreport)
      hnodup (fun r hr => path_of_recordsOf (hresults r hr)) htext⟩

/-- After any number of runs the store and the report account for all of them. -/
theorem History.accounts (h : History lib clock gs o file report contents done fs)
    (ho : Reports o file report columns) :
    (∀ s, HashStore.load fs file = .ok s → StoreAccounts gs (o.settings clock) contents done s) ∧
      ReportAccounts columns done (fs.entryAt? report) := by
  induction h with
  | start noStore noReport =>
    constructor
    · intro s hs
      rcases HashStore.load_eq_ok_iff.mp hs with ⟨-, rfl⟩ | ⟨content, t, hat, -⟩
      · exact fun _ _ hget => nomatch hget
      · rw [noStore] at hat
        cases hat
    · rw [noReport]
      exact fun _ => rfl
  | edit before sameStore sameReport ih =>
    rw [sameReport]
    exact ⟨fun s hs => ih.1 s ((HashStore.load_congr sameStore).mp hs), ih.2⟩
  | run before completes ih =>
    obtain ⟨hstore, e, hat, hreport⟩ := completes.accounts ho ih.1 ih.2
    exact ⟨hstore, hat ▸ hreport⟩

/-- After a run of any history the report shows, of each path, the records of its last result. -/
theorem History.exists_report (h : History lib clock gs o file report contents done fs)
    (ho : Reports o file report columns)
    (hrun : Completes lib clock gs o file report contents fs time rs after) :
    ∃ text, after.readText report = .ok text ∧
      ∀ path, Csv.rowsOf columns path text =
        (lastRecords (rs ++ done) path).map (Csv.recordRow columns) := by
  obtain ⟨hstore, hreport⟩ := h.accounts ho
  obtain ⟨-, e, hat, text, rfl, -, hrows⟩ := hrun.accounts ho hstore hreport
  exact ⟨text, FileTree.readText_eq_ok_iff.mpr ⟨_, hat, Utf8.decode_encode text⟩, hrows⟩

/-- Without the store a file has the result it has with it, or, if it is skipped, the result of its
last analysis. -/
theorem fresh_result {settings : Settings} {s : HashStore} {r : FileResult}
    (hs : StoreAccounts gs settings contents done s) (hdigest : Set.InjOn Digest.hex contents)
    (hr : runFile gs (some s) settings fs r.path = .ok r)
    (hread : ∀ content, fs.read r.path = .ok content → content ∈ contents) :
    ∃ fresh, runFile gs none settings fs r.path = .ok fresh ∧
      (Summary.isUnchanged r = false → fresh = r) ∧
      (r.status = .unchanged → lastAttempt done r.path = some fresh ∨
        ∃ failure, lastAttempt done r.path = some ⟨r.path, .failed failure⟩) := by
  obtain ⟨path, status⟩ := r
  obtain ⟨-, ⟨e, he, hfailed⟩ | ⟨content, hcontent, ⟨hskip, hsame⟩ | ⟨hskip, hstatus⟩⟩⟩ :=
    runFile_cases hr
  · dsimp only at he hfailed
    subst hfailed
    exact ⟨_, by simp only [runFile, he], fun _ => rfl, fun h => nomatch h⟩
  · dsimp only at hsame
    subst hsame
    obtain ⟨content', e, hcontent', he, hhash, -⟩ := skipped_cases hr
    obtain ⟨known, hknown, hash, coverage, records, hanalysed, rfl, hlast⟩ := hs path e he
    obtain ⟨-, -, -, -, hknownHash, -⟩ := analyseContent_eq_analysed.mp hanalysed
    obtain rfl := hdigest hknown (hread content' hcontent') (hknownHash.symm.trans hhash)
    refine ⟨⟨path, .analysed hash coverage records⟩, ?_, fun h => ?_, fun _ => hlast⟩
    · simp only [runFile, hcontent', skips, Bool.false_eq_true, if_false, hanalysed]
    · cases h
  · dsimp only at hcontent hstatus
    refine ⟨⟨path, status⟩, ?_, fun _ => rfl, ?_⟩
    · simp only [runFile, hcontent, skips, Bool.false_eq_true, if_false, hstatus]
    · rintro rfl
      exact absurd hstatus analyseContent_ne_unchanged

/-- The command without its hash file and its report. -/
def Options.storeless (o : Options) : Options := { o with hashFile := none, report := none }

/-- A run without a store prints the rows of fresh results. -/
theorem execute_storeless {p : Plan} (time : Text) (ho : Reports o file report columns)
    (hp : plan lib fs o = .ok p)
    (hfresh : ∀ path ∈ p.files, ∃ r, runFile p.grammars none (o.settings clock) fs path = .ok r) :
    ∃ answer, execute lib clock fs time o.storeless = ⟨fs, .ok answer⟩ ∧
      ∀ r, r.path ∈ p.files → runFile p.grammars none (o.settings clock) fs r.path = .ok r →
        Csv.rowsOf columns r.path answer.output =
          (recordsOf r).map (Csv.recordRow columns) := by
  obtain ⟨hgrammars, hfiles, hformat, hcolumns, -⟩ := plan_eq_ok_iff.mp hp
  have hcsv : p.format = .csv := Except.ok.inj (hformat.symm.trans ho.format)
  have hcols : p.columns = columns := Except.ok.inj (hcolumns.symm.trans ho.selects)
  have hplan : plan lib fs o.storeless = .ok { p with store := none } :=
    plan_eq_ok_iff.mpr ⟨hgrammars, hfiles, hformat, hcolumns, rfl⟩
  obtain ⟨rs, hrs⟩ := exists_runFiles hfresh
  obtain ⟨hpaths, hresults⟩ := runFiles_eq_ok_iff.mp hrs
  have hnodup : (rs.map (·.path)).Nodup := hpaths ▸ nodup_files hp
  refine ⟨⟨Csv.render columns (rs.flatMap recordsOf), _⟩,
    execute_eq_ok_iff.mpr ⟨_, rs, fs, hplan, hrs, rfl, ?_, rfl⟩, fun r hr hrun => ?_⟩
  · simp only [deliver, Options.storeless, hcsv, hcols, Format.render]
  · obtain ⟨s, hs, hpath⟩ := List.mem_map.mp (hpaths ▸ hr)
    obtain rfl := Except.ok.inj ((hpath ▸ hresults s hs).symm.trans hrun)
    rw [Csv.rowsOf_render ho.path,
      filter_records hnodup (fun q hq => path_of_recordsOf (hresults q hq)),
      find?_of_path hnodup hs (by simp) fun q hq => by simpa using hq]
    rfl

/-- The file is skipped although its last result was a failure. -/
def SkippedAfter (done : List FileResult) (r : FileResult) (failure : FileFailure) : Prop :=
  r.status = .unchanged ∧ lastAttempt done r.path = some ⟨r.path, .failed failure⟩

/-- After a run of any history the report has, of each file, the rows that a run without a store
prints now, unless the file was skipped after a failure. Then it has the row of the failure. -/
theorem report_rows (ho : Reports o file report columns) (hdigest : Set.InjOn Digest.hex contents)
    (hhistory : History lib clock gs o file report contents done fs)
    (hrun : Completes lib clock gs o file report contents fs time rs after) :
    ∃ text answer, after.readText report = .ok text ∧
      execute lib clock fs time o.storeless = ⟨fs, .ok answer⟩ ∧
      ∀ r ∈ rs,
        ((∀ failure, ¬SkippedAfter done r failure) →
          Csv.rowsOf columns r.path text = Csv.rowsOf columns r.path answer.output) ∧
        ∀ failure, SkippedAfter done r failure →
          Csv.rowsOf columns r.path text =
            [Csv.recordRow columns (Record.unanalysed r.path failure.message)] := by
  obtain ⟨text, htext, hrows⟩ := hhistory.exists_report ho hrun
  obtain ⟨p, s, -, -, hp, rfl, -, -, hs, hpaths, hresults, -⟩ := hrun.steps ho
  have hfresh : ∀ r ∈ rs, _ := fun r hr =>
    fresh_result ((hhistory.accounts ho).1 s hs) hdigest (hresults r hr) (hrun.reads r hr)
  have hfiles : ∀ path ∈ p.files, ∃ r,
      runFile p.grammars none (o.settings clock) fs path = .ok r := by
    intro path hpath
    obtain ⟨r, hr, rfl⟩ := List.mem_map.mp (hpaths ▸ hpath)
    obtain ⟨fresh, hfresh, -⟩ := hfresh r hr
    exact ⟨fresh, hfresh⟩
  obtain ⟨answer, hanswer, hprinted⟩ := execute_storeless time ho hp hfiles
  refine ⟨text, answer, htext, hanswer, fun r hr => ?_⟩
  have hnodup : (rs.map (·.path)).Nodup := hpaths ▸ nodup_files hp
  have hrecords : ∀ q ∈ rs, ∀ record ∈ recordsOf q, record.path = q.path :=
    fun q hq => path_of_recordsOf (hresults q hq)
  have hmem : r.path ∈ p.files := hpaths ▸ List.mem_map_of_mem hr
  obtain ⟨fresh, hrunFresh, hsame, hskipped⟩ := hfresh r hr
  obtain ⟨hpath, -⟩ := runFile_cases hrunFresh
  have hnow := hprinted fresh (hpath ▸ hmem) (hpath ▸ hrunFresh)
  rw [hpath] at hnow
  rw [hrows r.path, hnow]
  rcases lastAttempt_of_mem hnodup hrecords hr with ⟨hstatus, hlast⟩ | ⟨hstatus, hlast⟩
  · rw [lastRecords, hlast done, hsame hstatus]
    refine ⟨fun _ => rfl, fun failure hfailure => ?_⟩
    rw [isUnchanged_iff.mpr hfailure.1] at hstatus
    cases hstatus
  · rw [lastRecords, hlast done]
    constructor
    · intro hnot
      rcases hskipped hstatus with hfresh | ⟨failure, hfailure⟩
      · rw [hfresh]
        rfl
      · exact absurd ⟨hstatus, hfailure⟩ (hnot failure)
    · intro failure hfailure
      rw [hfailure.2]
      rfl

theorem reports_sample : Reports sample "h.json" "r.csv" [.path, .documented] := by
  have hformat : Format.ofName "csv" = .ok .csv := by decide +kernel
  have hcolumns : Column.select ["path", "documented"] = .ok [.path, .documented] := by
    decide +kernel
  exact ⟨rfl, rfl, hformat, hcolumns, by simp⟩

theorem completes_sample (contents : Set Bytes) (time : Text) (hcontents : [] ∈ contents) :
    Completes .common .still standardGrammars sample "h.json" "r.csv" contents loneFile time
      [sampleResult] (sampleTree [] sampleStore sampleReport) := by
  have hfile : runFile standardGrammars (some .empty) (sample.settings .still) loneFile "a.py" =
      .ok sampleResult := runFile_sample _ _ rfl rfl
  refine ⟨⟨_, execute_sample time⟩, ⟨_, plan_sample _ _ rfl rfl, rfl, ?_⟩, ?_, ?_⟩
  · simp only [runFiles, hfile]
  · intro r hr content hread
    obtain rfl := List.mem_singleton.mp hr
    obtain rfl := Except.ok.inj hread
    exact hcontents
  · rintro ⟨q, hstore, hreport⟩
    cases Except.ok.inj (hstore.trans hreport.symm)

theorem completes_sampleTree (contents : Set Bytes) (time : Text) {content : Bytes} {old : Text}
    {r : FileResult}
    (hr : runFile standardGrammars (some sampleStore) (sample.settings .still)
      (sampleTree content sampleStore old) "a.py" = .ok r)
    (hcontent : content ∈ contents) :
    Completes .common .still standardGrammars sample "h.json" "r.csv" contents
      (sampleTree content sampleStore old) time [r]
      (sampleTree content (remember sampleStore r)
        (Csv.merge old [.path, .documented] (recordsOf r) (replacedBy [r]))) := by
  have hplan := plan_sample .common (sampleTree content sampleStore old) rfl (load_sampleTree _ _)
  have hrs : runFiles standardGrammars (some sampleStore) (sample.settings .still)
      (sampleTree content sampleStore old) ["a.py"] = .ok [r] := by
    simp only [runFiles, hr]
  have htext : Report.contentAt (sampleTree content (remember sampleStore r) old) .csv "r.csv"
      [.path, .documented] ([r].flatMap recordsOf) (replacedBy [r]) =
        .ok (Csv.merge old [.path, .documented] (recordsOf r) (replacedBy [r])) := by
    have hold : (sampleTree content (remember sampleStore r) old).readText "r.csv" = .ok old :=
      FileTree.readText_eq_ok_iff.mpr ⟨_, rfl, Utf8.decode_encode old⟩
    have hfile : (sampleTree content (remember sampleStore r) old).isFile "r.csv" = true := rfl
    rw [Report.contentAt, if_pos hfile, hold, List.flatMap_singleton]
    rfl
  refine ⟨⟨_, execute_of_writes hplan rfl rfl rfl hrs rfl rfl htext rfl⟩, ⟨_, hplan, rfl, hrs⟩,
    ?_, ?_⟩
  · intro q hq content' hread
    obtain rfl := List.mem_singleton.mp hq
    rw [(runFile_cases hr).1] at hread
    obtain rfl := Except.ok.inj hread
    exact hcontent
  · rintro ⟨q, hstore, hreport⟩
    cases Except.ok.inj (hstore.trans hreport.symm)

theorem history_sample (contents : Set Bytes) (hcontents : [] ∈ contents) :
    History .common .still standardGrammars sample "h.json" "r.csv" contents [sampleResult]
      (sampleTree [] sampleStore sampleReport) :=
  (History.start rfl rfl).run (completes_sample contents [] hcontents)

/-- The empty file of the sample is skipped in the second run, and its row stays right. -/
theorem report_rows_again : ∃ text answer,
    (execute .common .still (sampleTree [] sampleStore sampleReport) "12-00-00"
      sample).files.readText "r.csv" = .ok text ∧
    execute .common .still (sampleTree [] sampleStore sampleReport) "12-00-00" sample.storeless =
      ⟨sampleTree [] sampleStore sampleReport, .ok answer⟩ ∧
    Csv.rowsOf [.path, .documented] "a.py" text =
      Csv.rowsOf [.path, .documented] "a.py" answer.output := by
  have hrun := completes_sampleTree {[]} "12-00-00" (runFile_sampleTree sampleReport) rfl
  obtain ⟨_, hdone⟩ := hrun.done
  obtain ⟨text, answer, htext, hanswer, hrows⟩ :=
    report_rows reports_sample (Set.injOn_singleton _ _) (history_sample {[]} rfl) hrun
  rw [hdone]
  refine ⟨text, answer, htext, hanswer, (hrows _ List.mem_cons_self).1 fun failure hfailed => ?_⟩
  cases hfailed.2

theorem digest_sample : Digest.hex [] ≠ Digest.hex [0xff] := by
  decide +kernel

/-- The file of the sample fails when it is no text, although its path is remembered. -/
theorem runFile_broken (report : Text) :
    runFile standardGrammars (some sampleStore) (sample.settings .still)
      (sampleTree [0xff] sampleStore report) "a.py" =
        .ok ⟨"a.py", .failed (.notText "a.py" (.invalid 1 0))⟩ := by
  have hread : (sampleTree [0xff] sampleStore report).read "a.py" = .ok [0xff] := rfl
  have hskip : skips (some sampleStore) (sample.settings .still) "a.py" [0xff] = false := by
    refine Bool.eq_false_iff.mpr fun h => ?_
    obtain ⟨e, he, hhash, -⟩ := skips_iff.mp h
    obtain rfl := Option.some.inj he
    exact digest_sample hhash
  have hfault : Utf8.decode [0xff] = .error (.invalid 1 0) := rfl
  simp only [runFile, hread, hskip, Bool.false_eq_true, if_false, analyseContent, hfault]

/-- The file of the sample is empty, is no text, and is empty again. -/
theorem history_broken : ∃ old,
    History .common .still standardGrammars sample "h.json" "r.csv" {[], [0xff]}
      [⟨"a.py", .failed (.notText "a.py" (.invalid 1 0))⟩, sampleResult]
      (sampleTree [] sampleStore old) := by
  have hfirst : History .common .still standardGrammars sample "h.json" "r.csv" {[], [0xff]}
      [sampleResult] (sampleTree [0xff] sampleStore sampleReport) :=
    (history_sample _ (Or.inl rfl)).edit rfl rfl
  have hsecond := hfirst.run (completes_sampleTree _ [] (runFile_broken _) (Or.inr rfl))
  exact ⟨_, hsecond.edit rfl rfl⟩

/-- When the file of the sample is empty again, its row is still that of the failure, although a run
without a store finds it documented. -/
theorem report_rows_after_failure :
    ¬∀ (lib : Pattern.Library) (clock : Clock) (gs : GrammarSet) (o : Options)
      (file report : Text) (columns : List Column) (contents : Set Bytes)
      (done rs : List FileResult) (fs after : FileTree) (time : Text),
      Reports o file report columns → Set.InjOn Digest.hex contents →
      History lib clock gs o file report contents done fs →
      Completes lib clock gs o file report contents fs time rs after →
      ∃ text answer, after.readText report = .ok text ∧
        execute lib clock fs time o.storeless = ⟨fs, .ok answer⟩ ∧
        ∀ r ∈ rs, Csv.rowsOf columns r.path text = Csv.rowsOf columns r.path answer.output := by
  intro hall
  have hinj : Set.InjOn Digest.hex {[], [0xff]} := by
    rintro a (rfl | rfl) b (rfl | rfl) h
    · rfl
    · exact absurd h digest_sample
    · exact absurd h.symm digest_sample
    · rfl
  obtain ⟨old, hhistory⟩ := history_broken
  have hrun := completes_sampleTree {[], [0xff]} [] (runFile_sampleTree old) (Or.inl rfl)
  obtain ⟨text, answer, htext, hanswer, hrows⟩ :=
    hall _ _ _ _ _ _ _ _ _ _ _ _ _ reports_sample hinj hhistory hrun
  obtain ⟨text', htext', hstale⟩ := hhistory.exists_report reports_sample hrun
  obtain rfl := Except.ok.inj (htext'.symm.trans htext)
  have hfresh := runFile_sample (sampleTree [] sampleStore old) none rfl rfl
  obtain ⟨answer', hanswer', hprinted⟩ := execute_storeless [] reports_sample
    (plan_sample _ _ rfl (load_sampleTree _ _)) fun path hpath => by
      obtain rfl := List.mem_singleton.mp hpath
      exact ⟨_, hfresh⟩
  obtain rfl := Except.ok.inj (congrArg Outcome.result (hanswer'.symm.trans hanswer))
  have hrow := (hrows _ List.mem_cons_self).trans (hprinted sampleResult List.mem_cons_self hfresh)
  exact absurd ((hstale "a.py").symm.trans hrow) (by decide +kernel)

end

end DocCoverage.Command
