import DocCoverage.Proofs.Discovery.Search
import DocCoverage.Proofs.Files.Spelling

/-!
# Searching along links

The entries of a directory may be links, which lead to directories anywhere in the tree, in circles
or nowhere. A search goes by the paths that it spells, but what it finds is told by the real
directories: it enters each one that the inputs lead to once, and lists each source file there once.
It can tell a directory by its path only if the system takes on that many links and a path of that
length.
-/
namespace DocCoverage.Discovery

open FileTree (Leads)

/-- A real directory that one of the inputs leads to along entries of directories, over any number
of links. -/
inductive Reachable (fs : FileTree) (inputs : List Text) : RealPath → Prop
  | input {path D} : path ∈ inputs → fs.find path = .ok (D, .directory) → Reachable fs inputs D
  | entry {D name j E} : Reachable fs inputs D → name ∈ fs.namesIn D →
      Leads fs true D [name] j E → fs.entry? E = some .directory → Reachable fs inputs E

/-- A source file lies under a name in a directory that the inputs lead to. What the name stands for
may be a link that leads nowhere, but it is no directory. -/
structure SourceIn (fs : FileTree) (inputs : List Text) (D : RealPath) (name : Text) : Prop where
  reachable : Reachable fs inputs D
  listed : name ∈ fs.namesIn D
  source : isSource name = true
  other : ∀ j E, Leads fs true D [name] j E → fs.entry? E ≠ some .directory

/-- A path that a search may spell, from one of the inputs down to a directory, with the directories
passed on the way, which are different from each other, and the number of links that it takes. -/
inductive Trail (fs : FileTree) (inputs : List Text) :
    (passed : List RealPath) → (links : Nat) → (path : Text) → RealPath → Prop
  | input {path D k} : path ∈ inputs → fs.find path = .ok (D, .directory) →
      Leads fs true (FileTree.origin fs.here path) (FileTree.wanted path) k D →
      Trail fs inputs [] k path D
  | entry {passed k path D name j E} : Trail fs inputs passed k path D → D ∉ passed →
      name ∈ fs.namesIn D → Leads fs true D [name] j E → fs.entry? E = some .directory →
      Trail fs inputs (D :: passed) (k + j) (Path.join path name) E

/-- The system takes on every path that a search may spell. -/
def Followable (fs : FileTree) (inputs : List Text) : Prop :=
  ∀ passed k path D, Trail fs inputs passed k path D →
    k ≤ fs.limits.links ∧ Text.byteLength path ≤ fs.limits.path

/-- A listed path stands for a name in a directory that was entered. -/
structure ListedAt (fs : FileTree) (visited : List RealPath) (path : Text) (D : RealPath)
    (name : Text) : Prop where
  entered : D ∈ visited
  listed : name ∈ fs.namesIn D
  source : isSource name = true
  other : fs.isDirectory path = false
  place : fs.StandsFor path (D ++ [name])

/-- The files are the source files in the directories that the inputs lead to, each listed once. -/
structure ListsOnce (fs : FileTree) (inputs files : List Text) : Prop where
  listed : ∀ path ∈ files, ∃ D name, SourceIn fs inputs D name ∧ fs.StandsFor path (D ++ [name])
  once : ∀ D name, SourceIn fs inputs D name →
    ∃! path, path ∈ files ∧ fs.StandsFor path (D ++ [name])

variable {fs : FileTree} {inputs files : List Text} {stops : List Stop} {q : Progress}
  {own : Text → Prop} {x y : Stop} {path name : Text} {D : RealPath}

theorem isSource_join (hx : fs.find x.2 = .ok (x.1, .directory)) (hname : Path.IsName name) :
    isSource (Path.join x.2 name) = isSource name := by
  rw [isSource, Path.extension_join (FileTree.ne_nil_of_find hx) hname, isSource]

theorem Reached.trail {passed : List RealPath} (hnames : fs.WellNamed)
    (h : Reached fs ⟨[]⟩ inputs passed x) :
    ∃ k, Trail fs inputs passed k x.2 x.1 ∧
      Leads fs true (FileTree.origin fs.here x.2) (Path.pieces x.2) k x.1 := by
  induction h with
  | input hmem hfind =>
    obtain ⟨-, -, ⟨k, -, hleads⟩, hdir⟩ := FileTree.find_eq_ok_iff_leads.mp hfind
    exact ⟨k, .input hmem hfind hleads, (FileTree.leads_wanted_iff hdir).mp hleads⟩
  | entry hx hnew hpath _ hfind ih =>
    obtain ⟨k, htrail, hleads⟩ := ih
    obtain ⟨name, hmem, rfl⟩ := List.mem_map.mp hpath
    have hname := (hnames.isEntryName hmem).toIsName
    have hne := FileTree.ne_nil_of_find hx.find
    obtain ⟨-, j, -, hlast, hdir⟩ := (FileTree.find_join_iff hname hx.find hleads).mp hfind
    refine ⟨k + j, .entry htrail hnew hmem hlast hdir, ?_⟩
    rw [Path.pieces_join hne hname, FileTree.origin_join hne hname]
    exact hleads.append hlast (List.cons_ne_nil _ _)

theorem Trail.reachable {passed : List RealPath} {k : Nat} (h : Trail fs inputs passed k path D) :
    Reachable fs inputs D := by
  induction h with
  | input hmem hfind _ => exact .input hmem hfind
  | entry _ _ hmem hlast hdir ih => exact .entry ih hmem hlast hdir

/-- A path below a directory that a search has reached is a directory if its name leads to one. -/
theorem find_entry_iff {passed : List RealPath} (hnames : fs.WellNamed)
    (hlinks : Followable fs inputs) (hx : Reached fs ⟨[]⟩ inputs passed x) (hnew : x.1 ∉ passed)
    (hmem : name ∈ fs.namesIn x.1) :
    fs.find (Path.join x.2 name) = .ok (D, .directory) ↔
      ∃ j, Leads fs true x.1 [name] j D ∧ fs.entry? D = some .directory := by
  obtain ⟨k, htrail, hleads⟩ := hx.trail hnames
  rw [FileTree.find_join_iff (hnames.isEntryName hmem).toIsName hx.find hleads]
  constructor
  · rintro ⟨-, j, -, hlast, hdir⟩
    exact ⟨j, hlast, hdir⟩
  · rintro ⟨j, hlast, hdir⟩
    obtain ⟨hfew, hshort⟩ := hlinks _ _ _ _ (.entry htrail hnew hmem hlast hdir)
    exact ⟨hshort, j, hfew, hlast, hdir⟩

theorem isDirectory_join_iff {passed : List RealPath} (hnames : fs.WellNamed)
    (hlinks : Followable fs inputs) (hx : Reached fs ⟨[]⟩ inputs passed x) (hnew : x.1 ∉ passed)
    (hmem : name ∈ fs.namesIn x.1) :
    fs.isDirectory (Path.join x.2 name) = true ↔
      ∃ j E, Leads fs true x.1 [name] j E ∧ fs.entry? E = some .directory := by
  rw [FileTree.isDirectory_iff_find, exists_comm]
  exact exists_congr fun E => find_entry_iff hnames hlinks hx hnew hmem

/-- A search enters no directories but those that the inputs lead to. -/
theorem Explores.reachable_of_mem (hnames : fs.WellNamed)
    (h : Explores fs ⟨[]⟩ inputs own stops ⟨[], []⟩ q) (hD : D ∈ q.visited) :
    Reachable fs inputs D := by
  rw [h.visited, List.append_nil] at hD
  obtain ⟨x, hx, rfl⟩ := List.mem_map.mp hD
  obtain ⟨passed, hreached, -⟩ := h.reached x hx
  obtain ⟨k, htrail, -⟩ := hreached.trail hnames
  exact htrail.reachable

/-- If all paths can be followed, it enters each of them. -/
theorem mem_visited_iff (hnames : fs.WellNamed) (hlinks : Followable fs inputs)
    (h : Explores fs ⟨[]⟩ inputs own stops ⟨[], []⟩ q)
    (hinputs : ∀ input ∈ inputs, ∀ D, fs.find input = .ok (D, .directory) → D ∈ q.visited) :
    D ∈ q.visited ↔ Reachable fs inputs D := by
  refine ⟨h.reachable_of_mem hnames, fun hD => ?_⟩
  induction hD with
  | input hmem hfind => exact hinputs _ hmem _ hfind
  | @entry D name j E _ hmem hlast hdir ih =>
    rw [h.visited, List.append_nil] at ih
    obtain ⟨x, hx, rfl⟩ := List.mem_map.mp ih
    obtain ⟨passed, hreached, hnew⟩ := h.reached x hx
    refine h.closed x hx _ (List.mem_map_of_mem hmem) rfl E ?_
    exact (find_entry_iff hnames hlinks hreached hnew hmem).mpr ⟨j, hlast, hdir⟩

/-- No directory is entered under two paths. -/
theorem Explores.stop_eq {filter : PathFilter} {p : Progress}
    (h : Explores fs filter inputs own stops p q) (hx : x ∈ stops) (hy : y ∈ stops)
    (hxy : x.1 = y.1) : x = y :=
  List.inj_on_of_nodup_map h.nodup hx hy hxy

/-- Spellings of one path below directories that a search has entered are the same. -/
theorem eq_of_components (hnames : fs.WellNamed)
    (h : Explores fs ⟨[]⟩ inputs own stops ⟨[], []⟩ q) {name' : Text} (hx : x ∈ stops)
    (hy : y ∈ stops) (hname : Path.IsName name) (hname' : Path.IsName name')
    (hsame : Path.components (Path.join x.2 name) = Path.components (Path.join y.2 name')) :
    Path.join x.2 name = Path.join y.2 name' := by
  obtain ⟨_, hreached, -⟩ := h.reached x hx
  obtain ⟨_, hreached', -⟩ := h.reached y hy
  rw [Path.components_join (FileTree.ne_nil_of_find hreached.find) hname,
    Path.components_join (FileTree.ne_nil_of_find hreached'.find) hname'] at hsame
  obtain ⟨hdirs, hlast⟩ := List.append_inj' hsame rfl
  obtain rfl := Component.name.inj (List.singleton_inj.mp hlast)
  obtain ⟨_, -, hleads⟩ := hreached.trail hnames
  obtain ⟨_, -, hleads'⟩ := hreached'.trail hnames
  rw [h.stop_eq hx hy (hleads.eq_of_same hdirs hleads')]

section

variable (hnames : fs.WellNamed) (h : Explores fs ⟨[]⟩ inputs own stops ⟨[], []⟩ q)
  (hown : ∀ path, ¬own path)

include hnames h hown

/-- A search takes up the entries of the directories that it enters. -/
theorem mem_files_iff :
    path ∈ q.files ↔ ∃ x ∈ stops, ∃ name ∈ fs.namesIn x.1, path = Path.join x.2 name ∧
      isSource name = true ∧ fs.isDirectory path = false := by
  rw [h.files]
  simp only [List.not_mem_nil, hown, false_or]
  refine exists_congr fun x => and_congr_right fun hx => ?_
  obtain ⟨passed, hreached, -⟩ := h.reached x hx
  constructor
  · rintro ⟨hpath, htaken⟩
    obtain ⟨name, hmem, rfl⟩ := List.mem_map.mp hpath
    have hsource := htaken.source
    rw [isSource_join hreached.find (hnames.isEntryName hmem).toIsName] at hsource
    exact ⟨name, hmem, rfl, hsource, htaken.other⟩
  · rintro ⟨name, hmem, rfl, hsource, hother⟩
    refine ⟨List.mem_map_of_mem hmem, rfl, hother, ?_⟩
    rwa [isSource_join hreached.find (hnames.isEntryName hmem).toIsName]

/-- Nothing but directories is left out of them. -/
theorem join_mem_files_iff (hx : x ∈ stops) (hmem : name ∈ fs.namesIn x.1)
    (hsource : isSource name = true) :
    Path.join x.2 name ∈ q.files ↔ fs.isDirectory (Path.join x.2 name) = false := by
  rw [mem_files_iff hnames h hown]
  constructor
  · rintro ⟨-, -, -, -, -, -, hother⟩
    exact hother
  · exact fun hother => ⟨x, hx, name, hmem, rfl, hsource, hother⟩

theorem mem_sorted_files_iff : path ∈ Path.sorted q.files.reverse ↔ path ∈ q.files := by
  rw [Path.mem_sorted_iff, List.mem_reverse]
  intro p hp p' hp' hsame
  rw [List.mem_reverse, mem_files_iff hnames h hown] at hp hp'
  obtain ⟨x, hx, name, hmem, rfl, -⟩ := hp
  obtain ⟨y, hy, name', hmem', rfl, -⟩ := hp'
  exact eq_of_components hnames h hx hy (hnames.isEntryName hmem).toIsName
      (hnames.isEntryName hmem').toIsName hsame

/-- Each listed path stands for one entry. -/
theorem listedAt_of_mem (hpath : path ∈ q.files) :
    ∃ x ∈ stops, ∃ name, path = Path.join x.2 name ∧ ListedAt fs q.visited path x.1 name := by
  obtain ⟨x, hx, name, hmem, rfl, hsource, hother⟩ := (mem_files_iff hnames h hown).mp hpath
  obtain ⟨passed, hreached, -⟩ := h.reached x hx
  refine ⟨x, hx, name, rfl, ?_, hmem, hsource, hother, hnames.standsFor_join hmem hreached.find⟩
  rw [h.visited, List.append_nil]
  exact List.mem_map_of_mem hx

/-- No entry is listed under two paths. -/
theorem eq_of_standsFor {path' : Text} {r : RealPath} (hpath : path ∈ q.files)
    (hpath' : path' ∈ q.files) (hr : fs.StandsFor path r) (hr' : fs.StandsFor path' r) :
    path = path' := by
  obtain ⟨x, hx, name, rfl, hlisted⟩ := listedAt_of_mem hnames h hown hpath
  obtain ⟨y, hy, name', rfl, hlisted'⟩ := listedAt_of_mem hnames h hown hpath'
  have hsame := (hlisted.place.unique hr).trans (hr'.unique hlisted'.place)
  obtain ⟨hdirs, hlast⟩ := List.append_inj' hsame rfl
  rw [h.stop_eq hx hy hdirs, List.singleton_inj.mp hlast]

/-- If all paths can be followed, the listed paths stand for the source files in the directories
that the inputs lead to. -/
theorem listsOnce_sorted (hlinks : Followable fs inputs)
    (hinputs : ∀ input ∈ inputs, ∀ D, fs.find input = .ok (D, .directory) → D ∈ q.visited) :
    ListsOnce fs inputs (Path.sorted q.files.reverse) := by
  constructor
  · intro path hpath
    rw [mem_sorted_files_iff hnames h hown] at hpath
    obtain ⟨x, hx, name, rfl, hlisted⟩ := listedAt_of_mem hnames h hown hpath
    obtain ⟨passed, hreached, hnew⟩ := h.reached x hx
    refine ⟨x.1, name, ⟨?_, hlisted.listed, hlisted.source, fun j E hlast hdir => ?_⟩,
      hlisted.place⟩
    · exact (mem_visited_iff hnames hlinks h hinputs).mp hlisted.entered
    · have hdirectory := (isDirectory_join_iff hnames hlinks hreached hnew hlisted.listed).mpr
        ⟨j, E, hlast, hdir⟩
      rw [hlisted.other] at hdirectory
      cases hdirectory
  · intro D name hfile
    have hvisited := (mem_visited_iff hnames hlinks h hinputs).mpr hfile.reachable
    rw [h.visited, List.append_nil] at hvisited
    obtain ⟨x, hx, rfl⟩ := List.mem_map.mp hvisited
    obtain ⟨passed, hreached, hnew⟩ := h.reached x hx
    have hother : fs.isDirectory (Path.join x.2 name) = false := by
      rw [Bool.eq_false_iff]
      intro hdirectory
      obtain ⟨j, E, hlast, hdir⟩ :=
        (isDirectory_join_iff hnames hlinks hreached hnew hfile.listed).mp hdirectory
      exact hfile.other j E hlast hdir
    have hplace := hnames.standsFor_join hfile.listed hreached.find
    have hmem := (join_mem_files_iff hnames h hown hx hfile.listed hfile.source).mpr hother
    refine ⟨Path.join x.2 name, ⟨(mem_sorted_files_iff hnames h hown).mpr hmem, hplace⟩,
      fun path ⟨hpath, hstands⟩ => ?_⟩
    exact eq_of_standsFor hnames h hown ((mem_sorted_files_iff hnames h hown).mp hpath) hmem
      hstands hplace

end

/-- A search of directories ends by itself, enters no real directory twice and only those that the
inputs lead to, lists what lies in them unless its path shows it to be a directory, and lists
nothing under two paths. If all paths can be followed, it enters every such directory and lists each
source file in them once. -/
theorem collect_reachable (hnames : fs.WellNamed)
    (hinputs : ∀ input ∈ inputs, fs.isDirectory input = true) :
    (∀ depth ≥ depthFor fs, ∀ p path,
      walk fs ⟨[]⟩ depth p path = walk fs ⟨[]⟩ (depthFor fs) p path) ∧
    ∃ q files, takeInputs fs ⟨[]⟩ ⟨[], []⟩ inputs = .ok q ∧ collect fs ⟨[]⟩ inputs = .ok files ∧
      q.visited.Nodup ∧ (∀ D ∈ q.visited, Reachable fs inputs D) ∧
      files.Nodup ∧ (∀ path ∈ files, ∃ D name, ListedAt fs q.visited path D name) ∧
      (∀ D ∈ q.visited, ∀ name ∈ fs.namesIn D, isSource name = true →
        ∃ path, fs.StandsFor path (D ++ [name]) ∧
          (path ∈ files ↔ fs.isDirectory path = false)) ∧
      (∀ path ∈ files, ∀ path' ∈ files, ∀ r,
        fs.StandsFor path r → fs.StandsFor path' r → path = path') ∧
      (Followable fs inputs →
        (∀ D, Reachable fs inputs D → D ∈ q.visited) ∧ ListsOnce fs inputs files) := by
  refine ⟨fun depth hdepth p path => walk_deeper (card_unvisited_lt_depthFor fs _) hdepth path, ?_⟩
  obtain ⟨q, stops, hq, hfiles, hexplores, hentered⟩ := collect_explores
    fun input hinput => Or.inr (hinputs input hinput)
  have hown : ∀ path,
      ¬(path ∈ inputs ∧ fs.isFile path = true ∧ (⟨[]⟩ : PathFilter).excludes path = false) := by
    rintro path ⟨hmem, hfile, -⟩
    obtain ⟨D, hD⟩ := FileTree.isDirectory_iff_find.mp (hinputs path hmem)
    simp [FileTree.isFile, hD] at hfile
  have hmem : ∀ path, path ∈ Path.sorted q.files.reverse ↔ path ∈ q.files :=
    fun path => mem_sorted_files_iff hnames hexplores hown
  refine ⟨q, _, hq, hfiles, ?_, fun D => hexplores.reachable_of_mem hnames, nodup_collect hfiles,
    fun path hpath => ?_, fun D hD name hname hsource => ?_, fun path hpath path' hpath' r => ?_,
    fun hlinks => ⟨fun D => ?_, ?_⟩⟩
  · rw [hexplores.visited, List.append_nil]
    exact hexplores.nodup
  · obtain ⟨x, -, name, -, hlisted⟩ :=
      listedAt_of_mem hnames hexplores hown ((hmem path).mp hpath)
    exact ⟨x.1, name, hlisted⟩
  · rw [hexplores.visited, List.append_nil] at hD
    obtain ⟨x, hx, rfl⟩ := List.mem_map.mp hD
    obtain ⟨passed, hreached, -⟩ := hexplores.reached x hx
    refine ⟨Path.join x.2 name, hnames.standsFor_join hname hreached.find, ?_⟩
    rw [hmem, join_mem_files_iff hnames hexplores hown hx hname hsource]
  · exact eq_of_standsFor hnames hexplores hown ((hmem path).mp hpath) ((hmem path').mp hpath')
  · exact (mem_visited_iff hnames hlinks hexplores hentered).mpr
  · exact listsOnce_sorted hnames hexplores hown hlinks hentered

/-- A directory with a link to the one above it, which is given by its absolute path. -/
def looped : FileTree := (FileTree.empty.addFile "a/b.py" []).makeLink "a/loop" "/work"

theorem built_looped : FileTree.Built looped := .makeLink _ _ (.addFile _ _ .empty)

/-- The paths that may be spelled in it: behind the link the directory is passed once more. -/
theorem trail_looped {passed : List RealPath} {k : Nat} (h : Trail looped ["a"] passed k path D) :
    (passed = [] ∧ k = 0 ∧ path = "a" ∧ D = (["work", "a"] : RealPath)) ∨
      (passed = ([["work", "a"]] : List RealPath) ∧ k ≤ 1 ∧ path = "a/loop" ∧
        D = (["work"] : RealPath)) ∨
      (passed = ([["work"], ["work", "a"]] : List RealPath) ∧ k ≤ 1 ∧ path = "a/loop/a" ∧
        D = (["work", "a"] : RealPath)) := by
  induction h with
  | input hmem _ hleads =>
    obtain rfl := List.mem_singleton.mp hmem
    obtain ⟨hk, rfl⟩ := hleads.eq_of_locateFrom
      (by decide +kernel : looped.locateFrom true 0 ["work"] ["a"] = .ok ["work", "a"])
    exact Or.inl ⟨rfl, Nat.le_zero.mp hk, rfl, rfl⟩
  | entry _ hnew hname hlast hdir ih =>
    rcases ih with ⟨rfl, rfl, rfl, rfl⟩ | ⟨rfl, hk, rfl, rfl⟩ | ⟨rfl, -, -, rfl⟩
    · have hnames : looped.namesIn ["work", "a"] = ["b.py", "loop"] := by decide +kernel
      rw [hnames] at hname
      rcases List.mem_pair.mp hname with rfl | rfl
      · obtain ⟨-, rfl⟩ := hlast.eq_of_locateFrom (by decide +kernel :
          looped.locateFrom true 0 ["work", "a"] ["b.py"] = .ok ["work", "a", "b.py"])
        exact absurd hdir (by decide +kernel)
      · obtain ⟨hj, rfl⟩ := hlast.eq_of_locateFrom
          (by decide +kernel : looped.locateFrom true 1 ["work", "a"] ["loop"] = .ok ["work"])
        exact Or.inr (Or.inl ⟨rfl, by omega, rfl, rfl⟩)
    · have hnames : looped.namesIn ["work"] = ["a"] := by decide +kernel
      rw [hnames] at hname
      obtain rfl := List.mem_singleton.mp hname
      obtain ⟨hj, rfl⟩ := hlast.eq_of_locateFrom
        (by decide +kernel : looped.locateFrom true 0 ["work"] ["a"] = .ok ["work", "a"])
      exact Or.inr (Or.inr ⟨rfl, by omega, rfl, rfl⟩)
    · exact absurd (by decide) hnew

/-- A search that is led back to where it started enters each directory once. -/
theorem collect_reachable_looped :
    looped.WellNamed ∧ (∀ input ∈ (["a"] : List Text), looped.isDirectory input = true) ∧
    Followable looped ["a"] ∧
    (∀ D, Reachable looped ["a"] D ↔ D ∈ ([["work"], ["work", "a"]] : List RealPath)) ∧
    collect looped ⟨[]⟩ ["a"] = .ok ["a/b.py"] ∧ ListsOnce looped ["a"] ["a/b.py"] := by
  have hinputs : ∀ input ∈ (["a"] : List Text), looped.isDirectory input = true := by decide +kernel
  have hlinks : Followable looped ["a"] := by
    intro passed k path D h
    have hlimits : looped.limits = {} := by decide +kernel
    rw [hlimits]
    rcases trail_looped h with ⟨-, rfl, rfl, -⟩ | ⟨-, hk, rfl, -⟩ | ⟨-, hk, rfl, -⟩
    · decide
    · exact ⟨Nat.le_trans hk (by decide), by decide⟩
    · exact ⟨Nat.le_trans hk (by decide), by decide⟩
  obtain ⟨-, q, files, hq, hfiles, -, hentered, -, -, -, -, hall⟩ :=
    collect_reachable built_looped.wellNamed hinputs
  obtain ⟨hvisited, honce⟩ := hall hlinks
  have hcollect : collect looped ⟨[]⟩ ["a"] = .ok ["a/b.py"] := by decide +kernel
  have hsearch : takeInputs looped ⟨[]⟩ ⟨[], []⟩ ["a"] =
      .ok ⟨[["work"], ["work", "a"]], ["a/b.py"]⟩ := by rfl
  obtain rfl := Except.ok.inj (hcollect.symm.trans hfiles)
  obtain rfl := Except.ok.inj (hsearch.symm.trans hq)
  exact ⟨built_looped.wellNamed, hinputs, hlinks, fun D => ⟨hvisited D, hentered D⟩, hcollect,
    honce⟩

/-- The target of a link to a directory beside the one the link lies in, over twenty links more. -/
def windingTarget (name : Text) : Text := "../" ++ (List.replicate 20 "l/".toList).flatten ++ name

/-- Two links one behind the other, each of which can be followed by itself. -/
def winding : FileTree :=
  ⟨[(["a"], .directory), (["b"], .directory), (["c"], .directory), (["c", "m.py"], .file []),
    (["l"], .link "."), (["a", "x"], .link (windingTarget "b")),
    (["b", "y"], .link (windingTarget "c"))], [], {}⟩

/-- Behind more links than the system follows on one path a directory is not searched. -/
theorem collect_winding :
    winding.WellNamed ∧ winding.isDirectory "a" = true ∧ SourceIn winding ["a"] ["c"] "m.py" ∧
    collect winding ⟨[]⟩ ["a"] = .ok [] ∧ ¬ListsOnce winding ["a"] [] := by
  have hfile : SourceIn winding ["a"] ["c"] "m.py" := by
    obtain ⟨i, -, hb⟩ := FileTree.leads_of_locateFrom
      (by decide +kernel : winding.locateFrom true 21 ["a"] ["x"] = .ok ["b"])
    obtain ⟨j, -, hc⟩ := FileTree.leads_of_locateFrom
      (by decide +kernel : winding.locateFrom true 21 ["b"] ["y"] = .ok ["c"])
    have ha : Reachable winding ["a"] ["a"] := .input (List.mem_singleton_self _) rfl
    refine ⟨.entry (.entry ha (by decide) hb rfl) (by decide) hc rfl, by decide, by decide, ?_⟩
    intro k E hE
    obtain ⟨-, rfl⟩ := hE.eq_of_locateFrom
      (by decide +kernel : winding.locateFrom true 0 ["c"] ["m.py"] = .ok ["c", "m.py"])
    decide
  refine ⟨by decide, by decide +kernel, hfile, by decide +kernel, fun honce => ?_⟩
  obtain ⟨path, ⟨hpath, -⟩, -⟩ := honce.once _ _ hfile
  cases hpath

end DocCoverage.Discovery
