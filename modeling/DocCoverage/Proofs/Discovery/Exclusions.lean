import DocCoverage.Proofs.Discovery.Search
import DocCoverage.Proofs.Files.Plain

/-!
# Searching with exclusions

Without links a search spells each directory in one way, be it an input itself or a directory below
one, so that it does not matter which of the inputs leads to it first. A source file is found if one
of the inputs leads to it with nothing excluded on the way; the input itself is searched even if a
pattern matches it.
-/
namespace DocCoverage.Discovery

open FileTree (Leads)

/-- Names that lead down from a directory with no path on the way excluded. -/
structure Clear (filter : PathFilter) (dir : Text) (names : List Text) : Prop where
  named : ∀ t ∈ names, Path.IsName t
  shown : ∀ front, front ≠ [] → front <+: names → filter.excludes (Path.below dir front) = false

/-- Names that lead down from a directory to a source file, with nothing excluded on the way. -/
structure SourceBelow (fs : FileTree) (filter : PathFilter) (dir : Text) (names : List Text) : Prop
    extends Clear filter dir names where
  nonempty : names ≠ []
  there : fs.exists (Path.below dir names) = true
  other : fs.isDirectory (Path.below dir names) = false
  source : isSource (Path.below dir names) = true

/-- A path that the inputs stand for: one of them, or one below a directory among them. -/
def Offered (fs : FileTree) (filter : PathFilter) (inputs : List Text) (path : Text) : Prop :=
  (path ∈ inputs ∧ fs.isFile path = true ∧ filter.excludes path = false) ∨
    ∃ dir ∈ inputs, fs.isDirectory dir = true ∧
      ∃ names, path = Path.below dir names ∧ SourceBelow fs filter dir names

/-- Every path below one of the inputs is short enough for the system. -/
def Spellable (fs : FileTree) (inputs : List Text) : Prop :=
  ∀ dir ∈ inputs, ∀ x ∈ fs.entries, fs.placeOf dir <+: x.1 →
    Text.byteLength (Path.below dir (x.1.drop (fs.placeOf dir).length)) ≤ fs.limits.path

instance (fs : FileTree) (inputs : List Text) : Decidable (Spellable fs inputs) :=
  inferInstanceAs (Decidable (∀ dir ∈ inputs, ∀ x ∈ fs.entries, fs.placeOf dir <+: x.1 →
    Text.byteLength (Path.below dir (x.1.drop (fs.placeOf dir).length)) ≤ fs.limits.path))

variable {fs : FileTree} {filter : PathFilter} {inputs inputs' : List Text} {stops : List Stop}
  {own : Text → Prop} {p q : Progress} {x : Stop} {dir path t : Text} {names : List Text}

theorem Spellable.short {e : Entry} (h : Spellable fs inputs) (hdir : dir ∈ inputs)
    (hne : names ≠ []) (he : fs.entry? (fs.placeOf dir ++ names) = some e) :
    Text.byteLength (Path.below dir names) ≤ fs.limits.path := by
  have hmem := FileTree.mem_entries_of_eq_some (List.append_ne_nil_of_right_ne_nil _ hne) he
  have hshort := h dir hdir _ hmem (List.prefix_append _ _)
  rwa [List.drop_left] at hshort

namespace Clear

theorem nil (filter : PathFilter) (dir : Text) : Clear filter dir [] where
  named := fun _ ht => absurd ht List.not_mem_nil
  shown := fun _ hne hfront => absurd (List.prefix_nil.mp hfront) hne

theorem concat (h : Clear filter dir names) (ht : Path.IsName t)
    (hshown : filter.excludes (Path.below dir (names ++ [t])) = false) :
    Clear filter dir (names ++ [t]) where
  named := by
    intro u hu
    rcases List.mem_append.mp hu with hu | hu
    · exact h.named u hu
    · exact List.mem_singleton.mp hu ▸ ht
  shown := by
    intro front hne hfront
    rcases List.prefix_concat_iff.mp hfront with rfl | hfront
    · exact hshown
    · exact h.shown front hne hfront

theorem tail (h : Clear filter dir (t :: names)) : Clear filter (dir ++ '/' :: t) names where
  named := fun u hu => h.named u (List.mem_cons_of_mem t hu)
  shown := by
    intro front _ hfront
    rw [← Path.below_cons]
    exact h.shown (t :: front) (List.cons_ne_nil _ _) (List.cons_prefix_cons.mpr ⟨rfl, hfront⟩)

theorem head_shown (h : Clear filter dir (t :: names)) :
    filter.excludes (dir ++ '/' :: t) = false := by
  have hfirst := h.shown [t] (List.cons_ne_nil _ _) (List.prefix_append [t] names)
  rwa [Path.below_cons, Path.below_nil] at hfirst

end Clear

section

variable (hnames : fs.WellNamed) (hplain : ∀ input ∈ inputs, Path.IsPlain input)

include hnames hplain

/-- A search reaches a directory from an input with nothing excluded on the way. -/
theorem Reached.exists_below {passed : List RealPath} (h : Reached fs filter inputs passed x) :
    ∃ dir ∈ inputs, fs.isDirectory dir = true ∧
      ∃ names, x.2 = Path.below dir names ∧ Clear filter dir names := by
  induction h with
  | @input path D hmem hfind =>
    exact ⟨path, hmem, FileTree.isDirectory_iff_find.mpr ⟨D, hfind⟩, [], (Path.below_nil _).symm,
      .nil filter path⟩
  | entry _ _ hpath hshown _ ih =>
    obtain ⟨dir, hdir, hdirectory, names, hbelow, hclear⟩ := ih
    obtain ⟨t, ht, rfl⟩ := List.mem_map.mp hpath
    have hname := (hnames.isEntryName ht).toIsName
    rw [hbelow, ((hplain dir hdir).below hclear.named).join hname, ← Path.below_concat]
      at hshown ⊢
    exact ⟨dir, hdir, hdirectory, names ++ [t], rfl, hclear.concat hname hshown⟩

theorem Reached.plain {passed : List RealPath} (h : Reached fs filter inputs passed x) :
    Path.IsPlain x.2 := by
  obtain ⟨dir, hdir, -, names, hbelow, hclear⟩ := h.exists_below hnames hplain
  exact hbelow ▸ (hplain dir hdir).below hclear.named

variable (hlinks : fs.Linkless)

include hlinks

/-- A file that a search takes up below an input is one that the input stands for. -/
theorem sourceBelow_of_liesIn (hshort : Spellable fs inputs)
    (h : Explores fs filter inputs own stops p q) (hpath : LiesIn fs filter stops path) :
    ∃ dir ∈ inputs, fs.isDirectory dir = true ∧
      ∃ names, path = Path.below dir names ∧ SourceBelow fs filter dir names := by
  obtain ⟨x, hx, hentry, htaken⟩ := hpath
  obtain ⟨passed, hreached, -⟩ := h.reached x hx
  obtain ⟨dir, hdir, hdirectory, names, hbelow, hclear⟩ := hreached.exists_below hnames hplain
  obtain ⟨t, ht, rfl⟩ := List.mem_map.mp hentry
  have hname := (hnames.isEntryName ht).toIsName
  have hhere := (hplain dir hdir).below hclear.named
  obtain ⟨e, he⟩ := FileTree.mem_namesIn_iff_entry?.mp ht
  have hlength : Text.byteLength (x.2 ++ '/' :: t) ≤ fs.limits.path := by
    rw [hbelow, ← Path.below_concat]
    refine hshort.short hdir (e := e) (by simp) ?_
    rw [← List.append_assoc, ← fs.placeOf_below dir hclear.named, ← hbelow,
      ← (hlinks.leads_of_find (hreached.plain hnames hplain) hreached.find).1]
    exact he
  have hfind := hlinks.find_concat (hbelow ▸ hhere) (hnames.isEntryName ht) hreached.find hlength he
  rw [hbelow, hhere.join hname, ← Path.below_concat] at htaken ⊢
  rw [hbelow, ← Path.below_concat] at hfind
  refine ⟨dir, hdir, hdirectory, names ++ [t], rfl, hclear.concat hname htaken.shown, by simp, ?_,
    htaken.other, htaken.source⟩
  rw [FileTree.exists, hfind]
  rfl

/-- A search takes up every file below a directory that it enters with nothing excluded on the
way. -/
theorem liesIn_of_sourceBelow
    (h : Explores fs filter inputs own stops ⟨[], []⟩ q) (hdir : Path.IsPlain dir)
    (hentered : fs.placeOf dir ∈ q.visited) (hfile : SourceBelow fs filter dir names) :
    LiesIn fs filter stops (Path.below dir names) := by
  induction names generalizing dir with
  | nil => exact absurd rfl hfile.nonempty
  | cons t names ih =>
    rw [h.visited, List.append_nil] at hentered
    obtain ⟨x, hx, hreal⟩ := List.mem_map.mp hentered
    obtain ⟨passed, hreached, -⟩ := h.reached x hx
    -- the directory was entered under its own spelling, as it has but one
    have hspelled : x.2 = dir := by
      refine fs.placeOf_injective ?_
      rw [← hreal, (hlinks.leads_of_find (hreached.plain hnames hplain) hreached.find).1]
    have hname := hfile.named t List.mem_cons_self
    have hjoin : Path.join x.2 t = dir ++ '/' :: t := by rw [hspelled, hdir.join hname]
    obtain ⟨e, hfind⟩ := hlinks.find_first hdir hfile.named hfile.there
    have hentry : t ∈ fs.namesIn x.1 := by
      rw [hreal]
      exact FileTree.mem_namesIn_iff_entry?.mpr ⟨e, (FileTree.find_eq_ok_iff.mp hfind).2⟩
    have hmem : dir ++ '/' :: t ∈ entriesOf fs x := hjoin ▸ List.mem_map_of_mem hentry
    have hshown := hfile.head_shown
    obtain ⟨hclear, -, hthere, hother, hsource⟩ := hfile
    rw [Path.below_cons] at hthere hother hsource ⊢
    by_cases hlast : names = []
    · subst hlast
      rw [Path.below_nil] at hother hsource ⊢
      exact ⟨x, hx, hmem, hshown, hother, hsource⟩
    · have hnext : Path.IsPlain (dir ++ '/' :: t) := hdir.concat hname
      obtain ⟨_, _, hfound⟩ := FileTree.find_of_exists hthere
      have hdirectory := hlinks.directory_of_find_below hnext hlast hclear.tail.named hfound
      exact ih hnext (h.closed x hx _ hmem hshown _ hdirectory)
        ⟨hclear.tail, hlast, hthere, hother, hsource⟩

theorem mem_files_iff_offered (hshort : Spellable fs inputs)
    (h : Explores fs filter inputs
      (fun path => path ∈ inputs ∧ fs.isFile path = true ∧ filter.excludes path = false)
      stops ⟨[], []⟩ q)
    (hentered : ∀ input ∈ inputs, ∀ D, fs.find input = .ok (D, .directory) → D ∈ q.visited) :
    path ∈ q.files ↔ Offered fs filter inputs path := by
  rw [h.files, Offered]
  simp only [List.not_mem_nil, false_or]
  refine or_congr_right ⟨sourceBelow_of_liesIn hnames hplain hlinks hshort h, ?_⟩
  rintro ⟨dir, hdir, hdirectory, names, rfl, hfile⟩
  obtain ⟨D, hfind⟩ := FileTree.isDirectory_iff_find.mp hdirectory
  obtain ⟨rfl, -⟩ := hlinks.leads_of_find (hplain dir hdir) hfind
  exact liesIn_of_sourceBelow hnames hplain hlinks h (hplain dir hdir)
    (hentered dir hdir _ hfind) hfile

end

theorem Offered.plain (hplain : ∀ input ∈ inputs, Path.IsPlain input)
    (h : Offered fs filter inputs path) : Path.IsPlain path := by
  rcases h with ⟨hpath, -⟩ | ⟨dir, hdir, -, names, rfl, hfile⟩
  · exact hplain path hpath
  · exact (hplain dir hdir).below hfile.named

/-- Plain paths stand for a list of files in increasing order. -/
theorem collect_eq_offered (hnames : fs.WellNamed) (hlinks : fs.Linkless)
    (hshort : Spellable fs inputs)
    (hinputs : ∀ input ∈ inputs,
      Path.IsPlain input ∧ (fs.isFile input = true ∨ fs.isDirectory input = true)) :
    ∃ files, collect fs filter inputs = .ok files ∧
      (files.Pairwise fun p q => Path.lt p q = true) ∧
      ∀ path, path ∈ files ↔ Offered fs filter inputs path := by
  have hplain : ∀ input ∈ inputs, Path.IsPlain input := fun input h => (hinputs input h).1
  obtain ⟨q, stops, -, hfiles, hexplores, hentered⟩ :=
    collect_explores fun input h => (hinputs input h).2
  have hmem : ∀ path, path ∈ q.files.reverse ↔ Offered fs filter inputs path := fun path => by
    rw [List.mem_reverse, mem_files_iff_offered hnames hplain hlinks hshort hexplores hentered]
  refine ⟨_, hfiles, Path.increasing_sorted _, fun path => ?_⟩
  rw [Path.mem_sorted_iff, hmem]
  intro p hp p' hp' hsame
  exact (((hmem p).mp hp).plain hplain).eq_of_components (((hmem p').mp hp').plain hplain) hsame

theorem offered_congr (h : ∀ input, input ∈ inputs' ↔ input ∈ inputs) :
    Offered fs filter inputs' path ↔ Offered fs filter inputs path := by
  simp only [Offered, h]

/-- In a tree without links the inputs stand for the files among them that no pattern matches and
the source files below the directories among them to which nothing excluded leads. They are listed
in increasing order, whatever the order and repetition of the inputs. -/
theorem collect_offered (hnames : fs.WellNamed) (hlinks : fs.Linkless)
    (hshort : Spellable fs inputs)
    (hinputs : ∀ input ∈ inputs,
      Path.IsPlain input ∧ (fs.isFile input = true ∨ fs.isDirectory input = true)) :
    ∃ files, collect fs filter inputs = .ok files ∧
      (files.Pairwise fun p q => Path.lt p q = true) ∧
      (∀ path, path ∈ files ↔ Offered fs filter inputs path) ∧
      ∀ inputs' : List Text, (∀ input, input ∈ inputs' ↔ input ∈ inputs) →
        collect fs filter inputs' = .ok files := by
  obtain ⟨files, hfiles, hincreasing, hmem⟩ := collect_eq_offered hnames hlinks hshort hinputs
  refine ⟨files, hfiles, hincreasing, hmem, fun inputs' hsame => ?_⟩
  obtain ⟨files', hfiles', hincreasing', hmem'⟩ :=
    collect_eq_offered hnames hlinks (fun input h => hshort input ((hsame input).mp h))
      fun input h => hinputs input ((hsame input).mp h)
  rw [hfiles', Path.eq_of_increasing hincreasing' hincreasing fun path => ?_]
  rw [hmem', hmem, offered_congr hsame]

/-- A package with generated files. -/
def packaged : FileTree :=
  (((FileTree.empty.addFile "pkg/mod.py" []).addFile "pkg/test_mod.py" []).addFile "pkg/notes.txt"
    []).addFile "pkg/build/gen.py" []

theorem built_packaged : FileTree.Built packaged :=
  .addFile _ _ (.addFile _ _ (.addFile _ _ (.addFile _ _ .empty)))

def skipping : PathFilter :=
  ((PathFilter.ofPatterns ["test_*.py", "*/build"]).toOption).getD ⟨[]⟩

/-- A directory that a pattern matches is searched as an input of its own, be it named before or
behind the directory above it. -/
theorem collect_offered_nested :
    packaged.WellNamed ∧ packaged.Linkless ∧ Spellable packaged ["pkg", "pkg/build"] ∧
    (∀ input ∈ (["pkg", "pkg/build"] : List Text),
      Path.IsPlain input ∧ (packaged.isFile input = true ∨ packaged.isDirectory input = true)) ∧
    Offered packaged skipping ["pkg", "pkg/build"] "pkg/build/gen.py" ∧
    ¬Offered packaged skipping ["pkg"] "pkg/build/gen.py" ∧
    collect packaged skipping ["pkg/build", "pkg", "pkg"] =
      .ok ["pkg/build/gen.py", "pkg/mod.py"] := by
  have hmembers : ∀ input : Text, input ∈ (["pkg/build", "pkg", "pkg"] : List Text) ↔
      input ∈ (["pkg", "pkg/build"] : List Text) := by
    intro input
    simp only [List.mem_cons, List.not_mem_nil, or_false, or_self]
    exact or_comm
  have hlinks : packaged.Linkless := by decide +kernel
  have hshort : Spellable packaged ["pkg", "pkg/build"] := by decide +kernel
  have hshort' : Spellable packaged ["pkg"] := by decide +kernel
  have hboth : ∀ input ∈ (["pkg", "pkg/build"] : List Text),
      Path.IsPlain input ∧
        (packaged.isFile input = true ∨ packaged.isDirectory input = true) := by decide +kernel
  have hone : ∀ input ∈ (["pkg"] : List Text),
      Path.IsPlain input ∧
        (packaged.isFile input = true ∨ packaged.isDirectory input = true) := by decide +kernel
  obtain ⟨files, hfiles, -, hmem, hsame⟩ :=
    @collect_offered packaged skipping _ built_packaged.wellNamed hlinks hshort hboth
  obtain ⟨files', hfiles', -, hmem', -⟩ :=
    @collect_offered packaged skipping _ built_packaged.wellNamed hlinks hshort' hone
  have hcollect : collect packaged skipping ["pkg", "pkg/build"] =
      .ok ["pkg/build/gen.py", "pkg/mod.py"] := by decide +kernel
  have hcollect' : collect packaged skipping ["pkg"] = .ok ["pkg/mod.py"] := by decide +kernel
  obtain rfl := Except.ok.inj (hcollect.symm.trans hfiles)
  obtain rfl := Except.ok.inj (hcollect'.symm.trans hfiles')
  refine ⟨built_packaged.wellNamed, hlinks, hshort, hboth, (hmem _).mp (by decide), fun h => ?_,
    hsame _ hmembers⟩
  exact absurd ((hmem' _).mpr h) (by decide)

end DocCoverage.Discovery
