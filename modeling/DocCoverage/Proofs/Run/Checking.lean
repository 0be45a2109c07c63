import DocCoverage.Proofs.Outline.Collapsing
import DocCoverage.Proofs.Outline.Levels
import DocCoverage.Proofs.Run.Skipping

/-!
# The exit status of a check

Whether a check passes is counted on the results of the files, where the records play no part. It
passes just when every record of the run is documented: the record of a file speaks for all
definitions in it, also for those that a collapsed report leaves out, and a file that failed has a
record that is not documented. Skipped files have no records and are not looked at.
-/
namespace DocCoverage

variable {gs : GrammarSet} {store : Option HashStore} {settings : Settings} {fs : FileTree}
  {path : Text}

theorem records_documented_iff {options : ScanOptions} {source : Text} {a : Analysis}
    (h : analyze gs options path source = .ok a) (collapse : Bool) :
    (∀ r ∈ a.records collapse, r.documented = true) ↔ a.coverage.complete = true := by
  constructor
  · intro hall
    have hroot : a.outline ∈ Record.reported collapse a.outline := by
      rw [Record.reported_eq]
      exact List.mem_cons_self
    exact hall (a.recordOf a.outline) (List.mem_map_of_mem hroot)
  · intro hcomplete r hr
    obtain ⟨o, ho, rfl⟩ := List.mem_map.mp hr
    have ho := Record.reported_subset collapse a.outline o ho
    rcases Outline.mem_walk.mp ho with rfl | ho
    · exact hcomplete
    · refine complete_of_not_exposed h fun hexposed => ?_
      have hroot := hexposed a.outline a.outline.self_mem_walk ho
      change a.outline.coverage.complete = true at hcomplete
      rw [hcomplete] at hroot
      cases hroot

namespace Summary

variable {rs : List FileResult}

theorem isClean_iff : (ofResults rs).isClean = true ↔
    ∀ r ∈ rs, isFailed r = false ∧ isIncomplete r = false := by
  simp only [isClean, ofResults, Bool.and_eq_true, beq_iff_eq, List.countP_eq_zero,
    Bool.not_eq_true, ← forall₂_and, and_comm]

end Summary

namespace Command

variable {lib : Pattern.Library} {clock : Clock} {o : Options} {p : Plan} {rs : List FileResult}
  {time : Text}

/-- The records of a result are documented when the file did not fail and is not incomplete. -/
theorem recordsOf_documented_iff {r : FileResult}
    (h : runFile gs store settings fs path = .ok r) :
    (∀ q ∈ recordsOf r, q.documented = true) ↔
      Summary.isFailed r = false ∧ Summary.isIncomplete r = false := by
  obtain ⟨file, status⟩ := r
  cases status with
  | unchanged => simp [recordsOf, Summary.isFailed, Summary.isIncomplete]
  | failed failure => simp [recordsOf, Summary.isFailed, Record.unanalysed]
  | analysed hash coverage records =>
    obtain ⟨-, ⟨e, -, hfailed⟩ | ⟨content, -, ⟨-, hskipped⟩ | ⟨-, hanalysed⟩⟩⟩ := runFile_cases h
    · cases hfailed
    · cases hskipped
    · obtain ⟨t, a, -, ha, -, rfl, rfl⟩ := analyseContent_eq_analysed.mp hanalysed
      simp only [recordsOf, records_documented_iff ha, Summary.isFailed, Summary.isIncomplete,
        Bool.not_eq_false', true_and]

/-- A command that checks and has no error passes if and only if every record that it delivers is
documented, and its exit status says so. -/
theorem check_passed_iff {after : FileTree} {answer : Answer}
    (h : execute lib clock fs time o = ⟨after, .ok answer⟩) (hcheck : o.check = true) :
    ∃ p rs saved, plan lib fs o = .ok p ∧
      runFiles p.grammars p.store (o.settings clock) fs p.files = .ok rs ∧
      saveStore fs o p rs = .ok saved ∧
      deliver saved time o p rs = .ok (answer.output, after) ∧
      (answer.passed = true ↔ ∀ r ∈ rs.flatMap recordsOf, r.documented = true) ∧
      (execute lib clock fs time o).exitStatus = if answer.passed then 0 else 1 := by
  obtain ⟨p, rs, saved, hp, hrs, hsaved, hdeliver, hpassed⟩ := execute_eq_ok_iff.mp h
  refine ⟨p, rs, saved, hp, hrs, hsaved, hdeliver, ?_, by rw [h]; rfl⟩
  obtain ⟨-, hresults⟩ := runFiles_eq_ok_iff.mp hrs
  rw [hpassed, hcheck, Bool.not_true, Bool.false_or, Summary.isClean_iff,
    List.forall_mem_flatMap]
  exact forall₂_congr fun r hr => (recordsOf_documented_iff (hresults r hr)).symm

/-- The check of the sample's file and of another one. -/
def checkedSample : Options where
  inputs := ["a.py", "b.py"]
  columns := ["path", "documented"]
  check := true

/-- An empty file and one that is no text. -/
def checkedTree : FileTree := ⟨[(["a.py"], .file []), (["b.py"], .file [0xff])], [], {}⟩

def brokenResult : FileResult := ⟨"b.py", .failed (.notText "b.py" (.invalid 1 0))⟩

theorem execute_checkedSample (time : Text) : ∃ output,
    execute .common .still checkedTree time checkedSample = ⟨checkedTree, .ok ⟨output, false⟩⟩ := by
  have hformat : Format.ofName "csv" = .ok .csv := by decide +kernel
  have hcolumns : Column.select ["path", "documented"] = .ok [.path, .documented] := by
    decide +kernel
  have hplan : plan .common checkedTree checkedSample =
      .ok ⟨standardGrammars, ["a.py", "b.py"], .csv, [.path, .documented], none⟩ :=
    plan_eq_ok_iff.mpr
      ⟨loadGrammars_none _ _, ⟨⟨[]⟩, ⟨[]⟩, rfl, rfl, rfl⟩, hformat, hcolumns, rfl⟩
  have hgood : runFile standardGrammars none (checkedSample.settings .still) checkedTree "a.py" =
      .ok sampleResult := runFile_sample checkedTree none rfl rfl
  have hbroken : runFile standardGrammars none (checkedSample.settings .still) checkedTree "b.py" =
      .ok brokenResult := rfl
  have hrun : runFiles standardGrammars none (checkedSample.settings .still) checkedTree
      ["a.py", "b.py"] = .ok [sampleResult, brokenResult] := by
    simp only [runFiles, hgood, hbroken]
  exact ⟨_, execute_eq_ok_iff.mpr ⟨_, _, checkedTree, hplan, hrun, rfl, rfl, rfl⟩⟩

/-- The check does not pass, because of the record of the file that is no text. -/
theorem check_passed_iff_broken : ∃ (answer : Answer) (p : Plan) (rs : List FileResult),
    execute .common .still checkedTree "12-00-00" checkedSample = ⟨checkedTree, .ok answer⟩ ∧
      checkedSample.check = true ∧ answer.passed = false ∧
      runFiles p.grammars p.store (checkedSample.settings .still) checkedTree p.files = .ok rs ∧
      ∃ r ∈ rs.flatMap recordsOf, r.documented = false := by
  obtain ⟨output, h⟩ := execute_checkedSample "12-00-00"
  obtain ⟨p, rs, -, -, hrs, -, -, hpassed, -⟩ := check_passed_iff h rfl
  have hsome : ¬∀ r ∈ rs.flatMap recordsOf, r.documented = true := fun hall =>
    Bool.noConfusion (hpassed.mpr hall)
  simp only [not_forall, exists_prop, Bool.not_eq_true] at hsome
  exact ⟨_, p, rs, h, rfl, rfl, hrs, hsome⟩

end Command

end DocCoverage
