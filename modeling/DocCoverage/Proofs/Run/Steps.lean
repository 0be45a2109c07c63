import DocCoverage.Command.Execute
import DocCoverage.Proofs.Files.Paths
import DocCoverage.Proofs.Grammar.Standard
import DocCoverage.Proofs.Store.Persistence

/-!
# What a command does, step by step

Each part of a command is inverted once: what a result for a file comes from, what settles a plan,
and which of its writes a command got to. The theorems about sequences of commands use these facts
and do not look into the definitions again.
-/
namespace DocCoverage

variable {gs : GrammarSet} {store : Option HashStore} {settings : Settings} {fs : FileTree}
  {path : Text} {content : Bytes}

/-- An analysed content, and everything that its status shows. -/
theorem analyseContent_eq_analysed {hash : Text} {coverage : Coverage} {records : List Record} :
    analyseContent gs settings path content = .ok (.analysed hash coverage records) ↔
      ∃ t a, Utf8.decode content = .ok t ∧
        analyze gs (settings.scan path (Text.normalize t)) path (Text.normalize t) = .ok a ∧
        hash = Digest.hex content ∧ coverage = a.coverage ∧
        records = a.records settings.collapse := by
  unfold analyseContent
  cases Utf8.decode content with
  | error fault => simp
  | ok t =>
    cases ha : analyze gs (settings.scan path (Text.normalize t)) path (Text.normalize t) with
    | error e => cases e <;> simp [ha]
    | ok a => simp [ha, eq_comm]

theorem analyseContent_ne_unchanged : analyseContent gs settings path content ≠ .ok .unchanged := by
  unfold analyseContent
  cases Utf8.decode content with
  | error fault => simp
  | ok t =>
    cases ha : analyze gs (settings.scan path (Text.normalize t)) path (Text.normalize t) with
    | error e => cases e <;> simp [ha]
    | ok a => simp [ha]

/-- Where the result for a file comes from: it could not be read, it is current in the store, or
its content was analysed. -/
theorem runFile_cases {r : FileResult} (h : runFile gs store settings fs path = .ok r) :
    r.path = path ∧
      ((∃ e, fs.read path = .error e ∧ r.status = .failed (.unreadable path e)) ∨
        ∃ content, fs.read path = .ok content ∧
          (skips store settings path content = true ∧ r.status = .unchanged ∨
            skips store settings path content = false ∧
              analyseContent gs settings path content = .ok r.status)) := by
  unfold runFile at h
  split at h
  · rename_i e he
    obtain rfl := Except.ok.inj h
    exact ⟨rfl, Or.inl ⟨e, he, rfl⟩⟩
  · rename_i content hread
    split at h
    · rename_i hskip
      obtain rfl := Except.ok.inj h
      exact ⟨rfl, Or.inr ⟨content, hread, Or.inl ⟨hskip, rfl⟩⟩⟩
    · rename_i hskip
      split at h
      · cases h
      · rename_i status hstatus
        obtain rfl := Except.ok.inj h
        exact ⟨rfl, Or.inr ⟨content, hread, Or.inr ⟨Bool.eq_false_iff.mpr hskip, hstatus⟩⟩⟩

/-- The results of a run are the results for its files, in their order. -/
theorem runFiles_eq_ok_iff {files : List Text} {rs : List FileResult} :
    runFiles gs store settings fs files = .ok rs ↔
      rs.map (·.path) = files ∧ ∀ r ∈ rs, runFile gs store settings fs r.path = .ok r := by
  induction files generalizing rs with
  | nil =>
    rw [runFiles]
    constructor
    · intro h
      obtain rfl := Except.ok.inj h
      exact ⟨rfl, fun r hr => nomatch hr⟩
    · rintro ⟨h, -⟩
      rw [List.map_eq_nil_iff.mp h]
  | cons path files ih =>
    rw [runFiles]
    constructor
    · intro h
      split at h
      · cases h
      · rename_i r hr
        split at h
        · cases h
        · rename_i rest hrest
          obtain rfl := Except.ok.inj h
          obtain ⟨hpath, -⟩ := runFile_cases hr
          obtain ⟨hpaths, hall⟩ := ih.mp hrest
          refine ⟨by rw [List.map_cons, hpath, hpaths], fun s hs => ?_⟩
          rcases List.mem_cons.mp hs with rfl | hs
          · rw [hpath]
            exact hr
          · exact hall s hs
    · rintro ⟨hpaths, hall⟩
      cases rs with
      | nil => cases hpaths
      | cons r rest =>
        obtain ⟨rfl, htail⟩ := List.cons.inj hpaths
        have hrest := ih.mpr ⟨htail, fun s hs => hall s (List.mem_cons_of_mem _ hs)⟩
        simp only [hall r List.mem_cons_self, hrest]

theorem exists_runFiles {files : List Text}
    (h : ∀ path ∈ files, ∃ r, runFile gs store settings fs path = .ok r) :
    ∃ rs, runFiles gs store settings fs files = .ok rs := by
  induction files with
  | nil => exact ⟨[], rfl⟩
  | cons path files ih =>
    obtain ⟨r, hr⟩ := h path List.mem_cons_self
    obtain ⟨rs, hrs⟩ := ih fun p hp => h p (List.mem_cons_of_mem _ hp)
    exact ⟨r :: rs, by simp only [runFiles, hr, hrs]⟩

namespace Command

variable {lib : Pattern.Library} {clock : Clock} {o : Options} {p : Plan} {rs : List FileResult}
  {time : Text}

theorem bind_lift_eq_ok_iff {ε α β : Type} {wrap : ε → Error} {r : Except ε α}
    {f : α → Except Error β} {b : β} :
    (lift wrap r >>= f) = .ok b ↔ ∃ a, r = .ok a ∧ f a = .ok b := by
  cases r <;> simp [lift, bind, Except.bind]

theorem loadGrammars_of_templates {path : Option Text} {ts : TemplateSet} {gs : GrammarSet}
    (ht : loadTemplates fs path = .ok ts) (hg : GrammarSet.compile lib ts = .ok gs) :
    loadGrammars lib fs path = .ok gs := by
  simp only [loadGrammars, ht, hg]

/-- The standard grammar for every kind of definition. -/
abbrev standardGrammars : GrammarSet := ⟨.standard, .standard, .standard⟩

/-- Without a grammar file the standard grammar is used. -/
theorem loadGrammars_none (lib : Pattern.Library) (fs : FileTree) :
    loadGrammars lib fs none = .ok standardGrammars :=
  loadGrammars_of_templates rfl (GrammarSet.compile_standard lib)

theorem plan_eq_ok_iff :
    plan lib fs o = .ok p ↔ loadGrammars lib fs o.grammar = .ok p.grammars ∧
      (∃ first filter, PathFilter.ofPatterns o.exclude = .ok first ∧
        first.extendAll fs o.excludeFiles = .ok filter ∧
        Discovery.collect fs filter o.inputs = .ok p.files) ∧
      Format.ofName (o.format.getD "csv") = .ok p.format ∧
      Column.select o.columns = .ok p.columns ∧ loadStore fs o.hashFile = .ok p.store := by
  simp only [plan, bind_lift_eq_ok_iff]
  constructor
  · rintro ⟨gs, hgs, first, hfirst, filter, hfilter, files, hfiles, format, hformat, columns,
      hcolumns, store, hstore, hp⟩
    obtain rfl := Except.ok.inj hp
    exact ⟨hgs, ⟨first, filter, hfirst, hfilter, hfiles⟩, hformat, hcolumns, hstore⟩
  · rintro ⟨hgs, ⟨first, filter, hfirst, hfilter, hfiles⟩, hformat, hcolumns, hstore⟩
    exact ⟨_, hgs, first, hfirst, filter, hfilter, _, hfiles, _, hformat, _, hcolumns, _, hstore,
      rfl⟩

theorem nodup_files (h : plan lib fs o = .ok p) : p.files.Nodup := by
  obtain ⟨-, ⟨first, filter, -, -, hfiles⟩, -⟩ := plan_eq_ok_iff.mp h
  exact Discovery.nodup_collect hfiles

theorem plan_store {file : Text} (h : plan lib fs o = .ok p) (hfile : o.hashFile = some file) :
    ∃ s, HashStore.load fs file = .ok s ∧ p.store = some s := by
  have hstore := (plan_eq_ok_iff.mp h).2.2.2.2
  rw [hfile, loadStore] at hstore
  split at hstore
  · cases hstore
  · rename_i s hs
    exact ⟨s, hs, (Except.ok.inj hstore).symm⟩

/-- Saving writes the remembered results into the hash file. -/
theorem saveStore_eq_ok {file : Text} {s : HashStore} {saved : FileTree}
    (hfile : o.hashFile = some file) (hs : p.store = some s)
    (h : saveStore fs o p rs = .ok saved) :
    fs.write file (Utf8.encode (rememberAll s rs).render) = .ok saved := by
  unfold saveStore at h
  rw [hs, hfile] at h
  exact HashStore.save_eq_ok h

/-- Where an entry comes from after remembering: from an analysed result, or from before if there
is no such result for its path. -/
theorem get?_rememberAll {s : HashStore} {e : HashEntry}
    (h : (rememberAll s rs).get? path = some e) :
    (∃ r ∈ rs, r.path = path ∧ ∃ hash coverage records,
        r.status = .analysed hash coverage records ∧ e = .ofCoverage hash coverage) ∨
      s.get? path = some e ∧ ∀ r ∈ rs, r.path = path → Summary.isAnalysed r = false := by
  induction rs generalizing s with
  | nil => exact Or.inr ⟨h, fun r hr => nomatch hr⟩
  | cons r rs ih =>
    rcases ih (s := remember s r) h with ⟨q, hq, hpath, hstatus⟩ | ⟨hget, hnone⟩
    · exact Or.inl ⟨q, List.mem_cons_of_mem _ hq, hpath, hstatus⟩
    · obtain ⟨file, status⟩ := r
      cases status with
      | analysed hash coverage records =>
        simp only [remember, HashStore.get?_update] at hget
        split at hget
        · rename_i hfile
          obtain rfl := Option.some.inj hget
          exact Or.inl ⟨_, List.mem_cons_self, hfile.symm, hash, coverage, records, rfl, rfl⟩
        · rename_i hfile
          refine Or.inr ⟨hget, fun q hq hpath => ?_⟩
          rcases List.mem_cons.mp hq with rfl | hq
          · exact absurd hpath.symm hfile
          · exact hnone q hq hpath
      | unchanged =>
        refine Or.inr ⟨hget, fun q hq hpath => ?_⟩
        rcases List.mem_cons.mp hq with rfl | hq
        · rfl
        · exact hnone q hq hpath
      | failed failure =>
        refine Or.inr ⟨hget, fun q hq hpath => ?_⟩
        rcases List.mem_cons.mp hq with rfl | hq
        · rfl
        · exact hnone q hq hpath

theorem increasing_rememberAll {s : HashStore} (h : Text.Increasing s.entries)
    (rs : List FileResult) : Text.Increasing (rememberAll s rs).entries := by
  induction rs generalizing s with
  | nil => exact h
  | cons r rs ih =>
    refine ih (s := remember s r) ?_
    unfold remember
    split
    · exact h.bind _ _
    · exact h

/-- A report is a text that its format gave for the records. -/
def IsReport (format : Format) (columns : List Column) (text : Text) : Prop :=
  ∃ records, text = format.render columns records ∨
    ∃ existing replaced, text = format.merge existing columns records replaced

/-- A delivered report was written to one file, or nowhere. -/
theorem deliver_eq_ok {saved written : FileTree} {output : Text}
    (h : deliver saved time o p rs = .ok (output, written)) :
    o.report = none ∧ written = saved ∧
        output = p.format.render p.columns (rs.flatMap recordsOf) ∨
      ∃ target text, o.report = some target ∧
        Report.contentAt saved p.format (Report.targetPath saved time p.format target) p.columns
          (rs.flatMap recordsOf) (replacedBy rs) = .ok text ∧
        saved.write (Report.targetPath saved time p.format target) (Utf8.encode text) =
          .ok written := by
  unfold deliver at h
  dsimp only at h
  split at h
  · rename_i hnone
    obtain ⟨rfl, rfl⟩ := Prod.mk.inj (Except.ok.inj h)
    exact Or.inl ⟨hnone, rfl, rfl⟩
  · rename_i target htarget
    split at h
    · cases h
    · rename_i path fs' hwrite
      obtain ⟨-, rfl⟩ := Prod.mk.inj (Except.ok.inj h)
      unfold Report.write at hwrite
      dsimp only at hwrite
      split at hwrite
      · cases hwrite
      · rename_i text htext
        split at hwrite
        · cases hwrite
        · rename_i fs'' hwritten
          obtain ⟨-, rfl⟩ := Prod.mk.inj (Except.ok.inj hwrite)
          exact Or.inr ⟨target, text, htarget, htext, hwritten⟩

theorem isReport_of_contentAt {columns : List Column} {format : Format} {records : List Record}
    {replaced : List Text} {text : Text}
    (h : Report.contentAt fs format path columns records replaced = .ok text) :
    IsReport format columns text := by
  unfold Report.contentAt at h
  split at h
  · split at h
    · cases h
    · rename_i existing _
      exact ⟨records, Or.inr ⟨existing, replaced, (Except.ok.inj h).symm⟩⟩
  · exact ⟨records, Or.inl (Except.ok.inj h).symm⟩

/-- The files after a command: as before, with the store saved, or with the report delivered too. -/
theorem execute_cases (lib : Pattern.Library) (clock : Clock) (fs : FileTree) (time : Text)
    (o : Options) :
    (execute lib clock fs time o).files = fs ∨
      ∃ p rs saved, plan lib fs o = .ok p ∧
        runFiles p.grammars p.store (o.settings clock) fs p.files = .ok rs ∧
        saveStore fs o p rs = .ok saved ∧
        ((execute lib clock fs time o).files = saved ∨
          ∃ output written, deliver saved time o p rs = .ok (output, written) ∧
            (execute lib clock fs time o).files = written) := by
  unfold execute
  cases hp : plan lib fs o with
  | error e => exact Or.inl rfl
  | ok p =>
    dsimp only
    cases hrs : runFiles p.grammars p.store (o.settings clock) fs p.files with
    | error a => exact Or.inl rfl
    | ok rs =>
      dsimp only
      cases hsaved : saveStore fs o p rs with
      | error e => exact Or.inl rfl
      | ok saved =>
        refine Or.inr ⟨p, rs, saved, rfl, hrs, hsaved, ?_⟩
        dsimp only
        cases hdeliver : deliver saved time o p rs with
        | error e => exact Or.inl rfl
        | ok delivered => exact Or.inr ⟨delivered.1, delivered.2, rfl, rfl⟩

/-- A command without an error went through all its steps. -/
theorem execute_eq_ok_iff {after : FileTree} {answer : Answer} :
    execute lib clock fs time o = ⟨after, .ok answer⟩ ↔
      ∃ p rs saved, plan lib fs o = .ok p ∧
        runFiles p.grammars p.store (o.settings clock) fs p.files = .ok rs ∧
        saveStore fs o p rs = .ok saved ∧
        deliver saved time o p rs = .ok (answer.output, after) ∧
        answer.passed = (!o.check || (Summary.ofResults rs).isClean) := by
  unfold execute
  constructor
  · intro h
    split at h
    · cases h
    · rename_i p hp
      split at h
      · cases h
      · rename_i rs hrs
        split at h
        · cases h
        · rename_i saved hsaved
          split at h
          · cases h
          · rename_i output written hdeliver
            cases h
            exact ⟨p, rs, saved, hp, hrs, hsaved, hdeliver, rfl⟩
  · rintro ⟨p, rs, saved, hp, hrs, hsaved, hdeliver, hpassed⟩
    simp only [hp, hrs, hsaved, hdeliver, ← hpassed]

/-- A command with a store and a report whose writes succeed has no error. -/
theorem execute_of_writes {saved after : FileTree} {file report text : Text} {s : HashStore}
    (hp : plan lib fs o = .ok p) (hfile : o.hashFile = some file) (hs : p.store = some s)
    (hreport : o.report = some report)
    (hrs : runFiles p.grammars p.store (o.settings clock) fs p.files = .ok rs)
    (hsaved : fs.write file (Utf8.encode (rememberAll s rs).render) = .ok saved)
    (hdir : saved.isDirectory report = false)
    (htext : Report.contentAt saved p.format report p.columns (rs.flatMap recordsOf)
      (replacedBy rs) = .ok text)
    (hafter : saved.write report (Utf8.encode text) = .ok after) :
    execute lib clock fs time o =
      ⟨after, .ok ⟨[], !o.check || (Summary.ofResults rs).isClean⟩⟩ := by
  have htarget : Report.targetPath saved time p.format report = report := by
    rw [Report.targetPath, if_neg (Bool.eq_false_iff.mp hdir)]
  have hwrite : Report.write saved time p.format report p.columns (rs.flatMap recordsOf)
      (replacedBy rs) = .ok (report, after) := by
    unfold Report.write
    simp only [htarget, htext, FileTree.writeText, hafter]
  refine execute_eq_ok_iff.mpr ⟨p, rs, saved, hp, hrs, ?_, ?_, rfl⟩
  · simp only [saveStore, hs, hfile, HashStore.save, FileTree.writeText, hsaved]
  · simp only [deliver, hreport, hwrite]

end Command

end DocCoverage
