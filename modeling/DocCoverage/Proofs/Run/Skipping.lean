import DocCoverage.Proofs.Outline.Walk
import DocCoverage.Proofs.Store.Reports
import Mathlib.Data.Set.Function

/-!
# Skipped files are documented

Commands share a hash file that was not there at first, and between them files are changed, except
the hash file. Every entry of the store was then earned: some content was analysed for its path, and
the entry holds the digest of that content and the coverage it reached. A file is skipped when its
digest is that of the entry for its path, so if no two of the contents that were read have one
digest, the content of a skipped file is the analysed one.
-/
namespace DocCoverage

/-- The entry holds what analysing a content comes to. -/
def HashEntry.EarnedBy (gs : GrammarSet) (depth : Nat) (path : Text) (e : HashEntry)
    (content : Bytes) : Prop :=
  ∃ t a, Utf8.decode content = .ok t ∧
    analyze gs { maxDepth := depth } path (Text.normalize t) = .ok a ∧
    e = .ofCoverage (Digest.hex content) a.coverage

/-- Every entry was earned by one of the contents. -/
def HashStore.Earned (gs : GrammarSet) (depth : Nat) (contents : Set Bytes) (s : HashStore) :
    Prop :=
  ∀ path e, s.get? path = some e → ∃ content ∈ contents, e.EarnedBy gs depth path content

variable {gs : GrammarSet} {depth : Nat} {contents : Set Bytes} {fs : FileTree}

theorem HashStore.earned_empty : HashStore.Earned gs depth contents .empty :=
  fun _ _ h => nomatch h

theorem HashStore.load_congr {fs fs' : FileTree} {path : Text} {s : HashStore}
    (h : fs'.entryAt? path = fs.entryAt? path) : load fs' path = .ok s ↔ load fs path = .ok s := by
  rw [load_eq_ok_iff, load_eq_ok_iff, h]

namespace Command

variable {lib : Pattern.Library} {clock : Clock} {o : Options} {p : Plan} {rs : List FileResult}
  {file : Text}

theorem earned_rememberAll {store : Option HashStore} {settings : Settings} {s : HashStore}
    (hs : s.Earned gs settings.maxDepth contents)
    (hrs : ∀ r ∈ rs, runFile gs store settings fs r.path = .ok r)
    (hread : ∀ r ∈ rs, ∀ content, fs.read r.path = .ok content → content ∈ contents) :
    (rememberAll s rs).Earned gs settings.maxDepth contents := by
  intro path e he
  rcases get?_rememberAll he with ⟨r, hr, rfl, hash, coverage, records, hstatus, rfl⟩ | ⟨hold, -⟩
  · obtain ⟨-, ⟨err, -, hfailed⟩ | ⟨content, hcontent, ⟨-, hsame⟩ | ⟨-, hanalysed⟩⟩⟩ :=
      runFile_cases (hrs r hr)
    · rw [hstatus] at hfailed
      cases hfailed
    · rw [hstatus] at hsame
      cases hsame
    · rw [hstatus] at hanalysed
      obtain ⟨t, a, ht, ha, hhash, hcoverage, -⟩ := analyseContent_eq_analysed.mp hanalysed
      refine ⟨content, hread r hr content hcontent, t, a, ht, analyze_untimed ha, ?_⟩
      rw [hhash, hcoverage]
  · exact hs path e hold

/-- What commands that share a hash file have in common: the hash file, the grammars and the depth
limit. The contents that they read are among the given ones. -/
structure Shares (lib : Pattern.Library) (gs : GrammarSet) (depth : Nat) (file : Text)
    (contents : Set Bytes) (fs : FileTree) (o : Options) : Prop where
  hashFile : o.hashFile = some file
  maxDepth : o.maxDepth.getD 256 = depth
  grammars : ∀ p, plan lib fs o = .ok p → p.grammars = gs
  reads : ∀ p, plan lib fs o = .ok p → ∀ path ∈ p.files, ∀ content,
    fs.read path = .ok content → content ∈ contents

/-- The trees that are reached by commands which share a hash file and by changes to other files. -/
inductive Session (lib : Pattern.Library) (gs : GrammarSet) (depth : Nat) (file : Text)
    (contents : Set Bytes) : FileTree → Prop
  | start {fs : FileTree} (absent : fs.entryAt? file = none) : Session lib gs depth file contents fs
  | edit {fs fs' : FileTree} (before : Session lib gs depth file contents fs)
      (kept : fs'.entryAt? file = fs.entryAt? file) : Session lib gs depth file contents fs'
  | run {fs : FileTree} {o : Options} (before : Session lib gs depth file contents fs)
      (shares : Shares lib gs depth file contents fs o) (clock : Clock) (time : Text) :
      Session lib gs depth file contents (execute lib clock fs time o).files

/-- A command keeps every entry of the hash file earned, however it ends. -/
theorem Shares.earned_execute (h : Shares lib gs depth file contents fs o) (clock : Clock)
    (time : Text) (hfs : ∀ s, HashStore.load fs file = .ok s → s.Earned gs depth contents) :
    ∀ s, HashStore.load (execute lib clock fs time o).files file = .ok s →
      s.Earned gs depth contents := by
  rcases execute_cases lib clock fs time o with hsame | ⟨p, rs, saved, hp, hrs, hsaved, hfiles⟩
  · rw [hsame]
    exact hfs
  · obtain ⟨old, hold, hstore⟩ := plan_store hp h.hashFile
    obtain ⟨hpaths, hresults⟩ := runFiles_eq_ok_iff.mp hrs
    rw [h.grammars p hp] at hresults
    have hread : ∀ r ∈ rs, ∀ content, fs.read r.path = .ok content → content ∈ contents :=
      fun r hr => h.reads p hp r.path (hpaths ▸ List.mem_map_of_mem hr)
    have hdepth : (o.settings clock).maxDepth = depth := h.maxDepth
    have hearned := earned_rememberAll (hdepth ▸ hfs old hold) hresults hread
    rw [hdepth] at hearned
    have hwrite := saveStore_eq_ok h.hashFile hstore hsaved
    have hload : HashStore.load saved file = .ok (rememberAll old rs) :=
      HashStore.load_of_render (increasing_rememberAll (HashStore.increasing_load hold) rs)
        (FileTree.entryAt?_write_self hwrite)
    have hkept : ∀ s, HashStore.load saved file = .ok s → s.Earned gs depth contents := by
      intro s hs
      obtain rfl := Except.ok.inj (hload.symm.trans hs)
      exact hearned
    rcases hfiles with hsame | ⟨output, written, hdeliver, hsame⟩
    · rw [hsame]
      exact hkept
    · rw [hsame]
      intro s hs
      rcases deliver_eq_ok hdeliver with ⟨-, rfl, -⟩ | ⟨target, text, -, htext, hreport⟩
      · exact hkept s hs
      · by_cases hmeets : saved.Meets (Report.targetPath saved time p.format target) file
        · -- the report lies in the hash file, from which nothing is loaded then
          have hentry := FileTree.entryAt?_write_of_meets hreport hmeets
          rcases HashStore.load_eq_ok_iff.mp hs with ⟨hnone, -⟩ | ⟨content, t, hat, ht, hparse⟩
          · rw [hentry] at hnone
            cases hnone
          · rw [hentry] at hat
            obtain rfl := Entry.file.inj (Option.some.inj hat)
            obtain rfl := Except.ok.inj ((Utf8.decode_encode text).symm.trans ht)
            have hcolumns := Column.select_ne_nil (plan_eq_ok_iff.mp hp).2.2.2.1
            exact absurd hparse (HashStore.parse_report hcolumns (isReport_of_contentAt htext))
        · exact hkept s ((HashStore.load_congr
            (FileTree.entryAt?_write_of_not_meets hreport hmeets)).mp hs)

/-- In every reached tree the entries of the hash file are earned. -/
theorem Session.earned (h : Session lib gs depth file contents fs) :
    ∀ s, HashStore.load fs file = .ok s → s.Earned gs depth contents := by
  induction h with
  | start absent =>
    intro s hs
    rcases HashStore.load_eq_ok_iff.mp hs with ⟨-, rfl⟩ | ⟨content, t, hat, -⟩
    · exact HashStore.earned_empty
    · rw [absent] at hat
      cases hat
  | edit before kept ih => exact fun s hs => ih s ((HashStore.load_congr kept).mp hs)
  | run before shares clock time ih => exact shares.earned_execute clock time ih

/-- A file is skipped if the store has its digest and the wanted level for its path. -/
theorem skips_iff {store : HashStore} {settings : Settings} {path : Text} {content : Bytes} :
    skips (some store) settings path content = true ↔
      ∃ e, store.get? path = some e ∧ e.hash = Digest.hex content ∧
        e.reached settings.level = true := by
  unfold skips HashStore.isCurrent
  cases h : store.get? path <;> simp [h]

theorem skipped_cases {store : HashStore} {settings : Settings} {path : Text}
    (h : runFile gs (some store) settings fs path = .ok ⟨path, .unchanged⟩) :
    ∃ content e, fs.read path = .ok content ∧ store.get? path = some e ∧
      e.hash = Digest.hex content ∧ e.reached settings.level = true := by
  obtain ⟨-, ⟨err, -, hfailed⟩ | ⟨content, hcontent, ⟨hskip, -⟩ | ⟨-, hanalysed⟩⟩⟩ :=
    runFile_cases h
  · cases hfailed
  · obtain ⟨e, he⟩ := skips_iff.mp hskip
    exact ⟨content, e, hcontent, he⟩
  · exact absurd hanalysed analyseContent_ne_unchanged

/-- Whenever a command calls a file unchanged, analysing its content succeeds and gives the flag of
the level that was asked for. -/
theorem unchanged_reaches (hsession : Session lib gs depth file contents fs)
    (hshares : Shares lib gs depth file contents fs o) (hdigest : Set.InjOn Digest.hex contents)
    (hp : plan lib fs o = .ok p)
    (hrs : runFiles p.grammars p.store (o.settings clock) fs p.files = .ok rs)
    {path : Text} (hpath : ⟨path, .unchanged⟩ ∈ rs) :
    ∃ content t a, fs.read path = .ok content ∧ Utf8.decode content = .ok t ∧
      analyze gs { maxDepth := depth } path (Text.normalize t) = .ok a ∧
      (o.level.getD .documented = .basicComments → a.coverage.basic = true) ∧
      (o.level.getD .documented = .multilineComments → a.coverage.multiline = true) ∧
      (o.level.getD .documented = .formattedMultiline → a.coverage.formatted = true) ∧
      (o.level.getD .documented = .documented → a.coverage.complete = true) := by
  obtain ⟨s, hs, hstore⟩ := plan_store hp hshares.hashFile
  obtain ⟨hpaths, hresults⟩ := runFiles_eq_ok_iff.mp hrs
  have hrun := hresults _ hpath
  rw [hstore] at hrun
  obtain ⟨content, e, hcontent, he, hhash, hlevel⟩ := skipped_cases hrun
  obtain ⟨known, hknown, t, a, ht, ha, rfl⟩ := hsession.earned s hs path e he
  have hmem : content ∈ contents :=
    hshares.reads p hp path (hpaths ▸ List.mem_map_of_mem hpath) content hcontent
  obtain rfl := hdigest hknown hmem hhash
  have hflag : ∀ level, o.level.getD .documented = level →
      (HashEntry.ofCoverage (Digest.hex known) a.coverage).reached level = true := by
    rintro level rfl
    exact hlevel
  exact ⟨known, t, a, hcontent, ht, ha, hflag _, hflag _, hflag _, hflag _⟩

/-- A command over one file, with a hash file and a report of two columns. -/
def sample : Options where
  inputs := ["a.py"]
  columns := ["path", "documented"]
  hashFile := some "h.json"
  report := some "r.csv"

/-- The file of the sample, next to nothing. -/
def loneFile : FileTree := ⟨[(["a.py"], .file [])], [], {}⟩

/-- The file of the sample next to a hash file and a report. -/
def sampleTree (content : Bytes) (s : HashStore) (report : Text) : FileTree :=
  ⟨[(["a.py"], .file content), (["h.json"], .file (Utf8.encode s.render)),
    (["r.csv"], .file (Utf8.encode report))], [], {}⟩

/-- The record of the file while it is empty. -/
def sampleRecord : Record where
  path := "a.py"
  name := "a.py"
  kind := .file
  startLine := 1
  endLine := 1
  basicComments := true
  multilineComments := true
  formattedMultiline := true
  documented := true

def sampleResult : FileResult :=
  ⟨"a.py", .analysed (Digest.hex []) ⟨true, true, true, true⟩ [sampleRecord]⟩

/-- The report on the empty file. -/
def sampleReport : Text := Csv.render [.path, .documented] [sampleRecord]

/-- What is remembered of the empty file. -/
def sampleStore : HashStore := ⟨[("a.py", ⟨Digest.hex [], true, true, true, true⟩)]⟩

theorem plan_sample (lib : Pattern.Library) (fs : FileTree) {s : HashStore}
    (hfiles : Discovery.collect fs ⟨[]⟩ ["a.py"] = .ok ["a.py"])
    (hload : HashStore.load fs "h.json" = .ok s) :
    plan lib fs sample = .ok ⟨standardGrammars, ["a.py"], .csv, [.path, .documented],
      some s⟩ := by
  have hformat : Format.ofName "csv" = .ok .csv := by decide +kernel
  have hcolumns : Column.select ["path", "documented"] = .ok [.path, .documented] := by
    decide +kernel
  have hstore : loadStore fs (some "h.json") = .ok (some s) := by simp only [loadStore, hload]
  exact plan_eq_ok_iff.mpr
    ⟨loadGrammars_none lib fs, ⟨⟨[]⟩, ⟨[]⟩, rfl, rfl, hfiles⟩, hformat, hcolumns, hstore⟩

theorem runFile_sample (fs : FileTree) (store : Option HashStore) (hread : fs.read "a.py" = .ok [])
    (hskip : skips store (sample.settings .still) "a.py" [] = false) :
    runFile standardGrammars store (sample.settings .still) fs "a.py" =
      .ok sampleResult := by
  have hfound :
      (analyze standardGrammars ((sample.settings .still).scan "a.py" []) "a.py" []).toOption.map
        (fun a => (a.coverage, a.records true)) =
      some (⟨true, true, true, true⟩, [sampleRecord]) := by
    decide +kernel
  cases ha : analyze standardGrammars ((sample.settings .still).scan "a.py" []) "a.py" [] with
  | error e =>
    rw [ha] at hfound
    cases hfound
  | ok a =>
    rw [ha] at hfound
    obtain ⟨hcoverage, hrecords⟩ := Prod.mk.inj (Option.some.inj hfound)
    have hstatus : analyseContent standardGrammars (sample.settings .still) "a.py" [] =
        .ok (.analysed (Digest.hex []) ⟨true, true, true, true⟩ [sampleRecord]) :=
      analyseContent_eq_analysed.mpr ⟨[], a, rfl, ha, rfl, hcoverage.symm, hrecords.symm⟩
    simp only [runFile, hread, hskip, Bool.false_eq_true, if_false, hstatus, sampleResult]

theorem execute_sample (time : Text) :
    execute .common .still loneFile time sample =
      ⟨sampleTree [] sampleStore sampleReport, .ok ⟨[], true⟩⟩ := by
  have hfile : runFile standardGrammars (some .empty) (sample.settings .still) loneFile "a.py" =
      .ok sampleResult := runFile_sample _ _ rfl rfl
  have hrun : runFiles standardGrammars (some .empty) (sample.settings .still) loneFile ["a.py"] =
      .ok [sampleResult] := by
    simp only [runFiles, hfile]
  exact execute_of_writes (plan_sample _ _ rfl rfl) rfl rfl rfl hrun rfl rfl rfl rfl

theorem load_sampleTree (content : Bytes) (report : Text) :
    HashStore.load (sampleTree content sampleStore report) "h.json" = .ok sampleStore :=
  HashStore.load_of_render (List.pairwise_singleton _ _) rfl

theorem runFile_sampleTree (report : Text) :
    runFile standardGrammars (some sampleStore) (sample.settings .still)
      (sampleTree [] sampleStore report) "a.py" = .ok ⟨"a.py", .unchanged⟩ := by
  have hskip : skips (some sampleStore) (sample.settings .still) "a.py" [] = true :=
    skips_iff.mpr ⟨_, rfl, rfl, rfl⟩
  have hread : (sampleTree [] sampleStore report).read "a.py" = .ok [] := rfl
  simp only [runFile, hread, hskip, if_true]

theorem shares_sample {s : HashStore} (hfiles : Discovery.collect fs ⟨[]⟩ ["a.py"] = .ok ["a.py"])
    (hload : HashStore.load fs "h.json" = .ok s) (hread : fs.read "a.py" = .ok []) :
    Shares lib standardGrammars 256 "h.json" {[]} fs sample := by
  have hplan := plan_sample lib fs hfiles hload
  refine ⟨rfl, rfl, fun p hp => ?_, fun p hp path hpath content hcontent => ?_⟩
  · rw [← Except.ok.inj (hplan.symm.trans hp)]
  · obtain rfl := Except.ok.inj (hplan.symm.trans hp)
    obtain rfl := List.mem_singleton.mp hpath
    exact (Except.ok.inj (hread.symm.trans hcontent)).symm

/-- An empty file is analysed, and skipped when the command runs again. -/
theorem unchanged_reaches_again : ∃ content t a,
    (execute .common .still loneFile "12-00-00" sample).files.read "a.py" = .ok content ∧
      Utf8.decode content = .ok t ∧
      analyze standardGrammars {} "a.py" (Text.normalize t) = .ok a ∧
      a.coverage.complete = true := by
  have hbefore : Session .common standardGrammars 256 "h.json" {[]} loneFile := .start rfl
  have hsession := hbefore.run (shares_sample rfl rfl rfl) .still "12-00-00"
  rw [execute_sample] at hsession ⊢
  have hfile := runFile_sampleTree sampleReport
  have hrun : runFiles standardGrammars (some sampleStore) (sample.settings .still)
      (sampleTree [] sampleStore sampleReport) ["a.py"] = .ok [⟨"a.py", .unchanged⟩] := by
    simp only [runFiles, hfile]
  obtain ⟨content, t, a, hread, ht, ha, -, -, -, hcomplete⟩ :=
    unchanged_reaches hsession (shares_sample rfl (load_sampleTree _ _) rfl)
      (Set.injOn_singleton _ _) (plan_sample _ _ rfl (load_sampleTree _ _)) hrun List.mem_cons_self
  exact ⟨content, t, a, hread, ht, ha, hcomplete rfl⟩

end Command

end DocCoverage
