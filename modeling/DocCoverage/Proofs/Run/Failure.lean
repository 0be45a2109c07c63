import DocCoverage.Proofs.Run.Skipping

/-!
# What a failed command leaves behind

A command that ends with an error has written nothing, with one exception: the store is saved before
the report is read and written. When that fails, the hash file already holds the results of the run
although no report shows them. The report itself is as it was after every error.
-/
namespace DocCoverage.Command

variable {lib : Pattern.Library} {clock : Clock} {fs : FileTree} {time : Text} {o : Options}
  {p : Plan} {rs : List FileResult}

theorem bind_lift_ne_error {ε α β : Type} {wrap : ε → Error} {r : Except ε α}
    {f : α → Except Error β} {e : Error} (hwrap : ∀ cause, wrap cause ≠ e)
    (hf : ∀ a, f a ≠ .error e) : (lift wrap r >>= f) ≠ .error e := by
  cases r with
  | error cause => exact fun h => hwrap cause (Except.error.inj h)
  | ok a => exact hf a

theorem plan_ne_report (cause : Report.Error) : plan lib fs o ≠ .error (.report cause) := by
  iterate 7 refine bind_lift_ne_error (fun _ => by simp) fun _ => ?_
  simp [pure, Except.pure]

/-- A command fails before it has written anything, or at its report after the store is saved. -/
theorem execute_eq_error {after : FileTree} {e : Error}
    (h : execute lib clock fs time o = ⟨after, .error e⟩) :
    after = fs ∧ (∀ cause, e ≠ .report cause) ∨
      ∃ p rs cause, e = .report cause ∧ plan lib fs o = .ok p ∧
        runFiles p.grammars p.store (o.settings clock) fs p.files = .ok rs ∧
        saveStore fs o p rs = .ok after ∧ deliver after time o p rs = .error cause := by
  unfold execute at h
  split at h
  · rename_i cause hp
    cases h
    refine Or.inl ⟨rfl, fun cause hcause => ?_⟩
    subst hcause
    exact plan_ne_report cause hp
  · rename_i p hp
    split at h
    · cases h
      exact Or.inl ⟨rfl, fun cause => by simp⟩
    · rename_i rs hrs
      split at h
      · cases h
        exact Or.inl ⟨rfl, fun cause => by simp⟩
      · rename_i saved hsaved
        split at h
        · rename_i cause hdeliver
          cases h
          exact Or.inr ⟨p, rs, cause, rfl, hp, hrs, hsaved, hdeliver⟩
        · cases h

/-- A report that cannot be delivered leaves the saved store behind. -/
theorem execute_of_undelivered {saved : FileTree} {cause : Report.Error}
    (hp : plan lib fs o = .ok p)
    (hrs : runFiles p.grammars p.store (o.settings clock) fs p.files = .ok rs)
    (hsaved : saveStore fs o p rs = .ok saved)
    (hdeliver : deliver saved time o p rs = .error cause) :
    execute lib clock fs time o = ⟨saved, .error (.report cause)⟩ := by
  simp only [execute, hp, hrs, hsaved, hdeliver]

/-- A report goes into every file that holds a text. -/
theorem exists_report_write {format : Format} {target text : Text}
    (h : fs.entryAt? (Report.targetPath fs time format target) = some (.file (Utf8.encode text)))
    (columns : List Column) (records : List Record) (replaced : List Text) :
    ∃ written, Report.write fs time format target columns records replaced = .ok written := by
  have hfile := FileTree.isFile_iff.mpr ⟨_, h⟩
  have htext := FileTree.readText_eq_ok_iff.mpr ⟨_, h, Utf8.decode_encode text⟩
  obtain ⟨after, hafter⟩ :=
    FileTree.exists_write h (Utf8.encode (format.merge text columns records replaced))
  refine ⟨(Report.targetPath fs time format target, after), ?_⟩
  have hcontent : Report.contentAt fs format (Report.targetPath fs time format target) columns
      records replaced = .ok (format.merge text columns records replaced) := by
    rw [Report.contentAt, if_pos hfile, htext]
  unfold Report.write
  simp only [hcontent, FileTree.writeText, hafter]

/-- A report that cannot be delivered was to lie in something that is no text file. -/
theorem deliver_eq_error {cause : Report.Error} (h : deliver fs time o p rs = .error cause) :
    ∃ target, o.report = some target ∧ ∀ text,
      fs.entryAt? (Report.targetPath fs time p.format target) ≠
        some (.file (Utf8.encode text)) := by
  unfold deliver at h
  dsimp only at h
  split at h
  · cases h
  · rename_i target htarget
    refine ⟨target, htarget, fun text htext => ?_⟩
    obtain ⟨written, hwritten⟩ :=
      exists_report_write htext p.columns (rs.flatMap recordsOf) (replacedBy rs)
    rw [hwritten] at h
    cases h

theorem targetPath_write {file : Text} {content : Bytes} {saved : FileTree}
    (h : fs.write file content = .ok saved) (format : Format) (target : Text) :
    Report.targetPath saved time format target = Report.targetPath fs time format target := by
  rw [Report.targetPath, Report.targetPath, FileTree.isDirectory_write h]

/-- After an error the report is as it was. The other files are too, unless the error lies with the
report and there is a hash file: then the hash file holds the results of the run. -/
theorem execute_error {e : Error} (h : (execute lib clock fs time o).result = .error e) :
    (∀ target format, o.report = some target → Format.ofName (o.format.getD "csv") = .ok format →
      (execute lib clock fs time o).files.entryAt? (Report.targetPath fs time format target) =
        fs.entryAt? (Report.targetPath fs time format target)) ∧
    ((∀ cause, e ≠ .report cause) ∨ o.hashFile = none → (execute lib clock fs time o).files = fs) ∧
    ∀ cause file, e = .report cause → o.hashFile = some file →
      ∃ p s rs, plan lib fs o = .ok p ∧ HashStore.load fs file = .ok s ∧
        runFiles p.grammars (some s) (o.settings clock) fs p.files = .ok rs ∧
        HashStore.load (execute lib clock fs time o).files file = .ok (rememberAll s rs) ∧
        ∀ path, ¬fs.Meets file path →
          (execute lib clock fs time o).files.entryAt? path = fs.entryAt? path := by
  obtain ⟨after, hafter⟩ : ∃ after, execute lib clock fs time o = ⟨after, .error e⟩ :=
    ⟨_, by rw [← h]⟩
  rw [hafter]
  dsimp only
  rcases execute_eq_error hafter with
    ⟨rfl, hnot⟩ | ⟨p, rs, cause, rfl, hp, hrs, hsaved, hdeliver⟩
  · exact ⟨fun _ _ _ _ => rfl, fun _ => rfl, fun cause _ hcause => absurd hcause (hnot cause)⟩
  · cases hfile : o.hashFile with
    | none =>
      have hsame : after = fs := by
        rw [saveStore, hfile] at hsaved
        cases hstore : p.store <;> rw [hstore] at hsaved <;> exact (Except.ok.inj hsaved).symm
      rw [hsame]
      exact ⟨fun _ _ _ _ => rfl, fun _ => rfl, fun _ _ _ hnone => by cases hnone⟩
    | some file =>
      obtain ⟨s, hs, hstore⟩ := plan_store hp hfile
      have hwrite := saveStore_eq_ok hfile hstore hsaved
      have hothers : ∀ path, ¬fs.Meets file path → after.entryAt? path = fs.entryAt? path :=
        fun path => FileTree.entryAt?_write_of_not_meets hwrite
      refine ⟨fun target format htarget hformat => ?_, fun hwhen => ?_, ?_⟩
      · obtain rfl : format = p.format :=
          Except.ok.inj (hformat.symm.trans (plan_eq_ok_iff.mp hp).2.2.1)
        obtain ⟨target', htarget', htext⟩ := deliver_eq_error hdeliver
        obtain rfl := Option.some.inj (htarget'.symm.trans htarget)
        -- a report in the hash file would lie in a text file, and could have been delivered
        refine hothers _ fun hmeets => htext (rememberAll s rs).render ?_
        rw [targetPath_write hwrite]
        exact FileTree.entryAt?_write_of_meets hwrite hmeets
      · rcases hwhen with hnot | hnone
        · exact absurd rfl (hnot cause)
        · cases hnone
      · intro _ file' _ hfile'
        obtain rfl := Option.some.inj hfile'
        rw [hstore] at hrs
        refine ⟨p, s, rs, hp, hs, hrs, ?_, hothers⟩
        exact HashStore.load_of_render
          (increasing_rememberAll (HashStore.increasing_load hs) rs)
          (FileTree.entryAt?_write_self hwrite)

/-- The sample with a report in a directory that is not there. -/
def strandedSample : Options := { sample with report := some "missing/r.csv" }

theorem plan_strandedSample (lib : Pattern.Library) : plan lib loneFile strandedSample =
    .ok ⟨standardGrammars, ["a.py"], .csv, [.path, .documented], some .empty⟩ :=
  plan_sample lib loneFile rfl rfl

theorem runFiles_strandedSample :
    runFiles standardGrammars (some .empty) (strandedSample.settings .still) loneFile ["a.py"] =
      .ok [sampleResult] := by
  have hfile : runFile standardGrammars (some .empty) (strandedSample.settings .still) loneFile
      "a.py" = .ok sampleResult := runFile_sample loneFile _ rfl rfl
  simp only [runFiles, hfile]

/-- The first run over the empty file saves the store and cannot write the report. -/
theorem execute_strandedSample (time : Text) :
    execute .common .still loneFile time strandedSample =
      ⟨⟨[(["a.py"], .file []), (["h.json"], .file (Utf8.encode sampleStore.render))], [], {}⟩,
        .error (.report (.unwritable "missing/r.csv" .notFound))⟩ := by
  have hsaved : saveStore loneFile strandedSample
      ⟨standardGrammars, ["a.py"], .csv, [.path, .documented], some .empty⟩ [sampleResult] =
      .ok ⟨[(["a.py"], .file []), (["h.json"], .file (Utf8.encode sampleStore.render))], [], {}⟩ :=
    rfl
  have hdeliver : deliver
      ⟨[(["a.py"], .file []), (["h.json"], .file (Utf8.encode sampleStore.render))], [], {}⟩ time
      strandedSample ⟨standardGrammars, ["a.py"], .csv, [.path, .documented], some .empty⟩
      [sampleResult] = .error (.unwritable "missing/r.csv" .notFound) := rfl
  exact execute_of_undelivered (plan_strandedSample _) runFiles_strandedSample hsaved hdeliver

/-- The report is not there after the error, and the file is remembered all the same. -/
theorem execute_error_stranded :
    (execute .common .still loneFile "12-00-00" strandedSample).result =
        .error (.report (.unwritable "missing/r.csv" .notFound)) ∧
      (execute .common .still loneFile "12-00-00" strandedSample).files.entryAt? "missing/r.csv" =
        none ∧
      HashStore.load (execute .common .still loneFile "12-00-00" strandedSample).files "h.json" =
        .ok sampleStore := by
  have hresult := congrArg Outcome.result (execute_strandedSample "12-00-00")
  have hformat : Format.ofName "csv" = .ok .csv := by decide +kernel
  obtain ⟨hreport, -, hstore⟩ := execute_error hresult
  obtain ⟨p, s, rs, hp, hs, hrs, hload, -⟩ := hstore _ "h.json" rfl rfl
  obtain rfl := Except.ok.inj ((plan_strandedSample _).symm.trans hp)
  obtain rfl : HashStore.empty = s := Except.ok.inj hs
  obtain rfl := Except.ok.inj (runFiles_strandedSample.symm.trans hrs)
  exact ⟨hresult, (hreport "missing/r.csv" .csv rfl hformat).trans rfl, hload⟩

/-- The hash file, which was not there, holds the store after the error. -/
theorem execute_error_saved :
    ¬∀ (lib : Pattern.Library) (clock : Clock) (fs : FileTree) (time : Text) (o : Options),
      (execute lib clock fs time o).exitStatus = 2 →
      (∀ file, o.hashFile = some file →
        (execute lib clock fs time o).files.entryAt? file = fs.entryAt? file) ∧
      ∀ target format, o.report = some target → Format.ofName (o.format.getD "csv") = .ok format →
        (execute lib clock fs time o).files.entryAt? (Report.targetPath fs time format target) =
          fs.entryAt? (Report.targetPath fs time format target) := by
  intro hall
  have hexit : (execute .common .still loneFile [] strandedSample).exitStatus = 2 := by
    rw [execute_strandedSample]
    rfl
  have hsame := (hall .common .still loneFile [] strandedSample hexit).1 "h.json" rfl
  rw [execute_strandedSample] at hsame
  cases hsame

end DocCoverage.Command
