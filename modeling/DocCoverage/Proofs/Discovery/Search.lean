import DocCoverage.Discovery
import DocCoverage.Proofs.Files.Tree
import Mathlib.Data.Finset.Card
import Mathlib.Data.Finset.Dedup

/-!
# What a search goes through

A search keeps the real directories that it has entered. Whatever it does from one state to the next
is told by the list of the directories that it enters on the way, each under the path by which it
was first reached: it enters none of them again, takes up the files that lie directly in them, and
leaves no directory below them unentered. Its depth is bounded by the number of directories that it
has not entered yet.
-/
namespace DocCoverage.Discovery

/-- A directory under a spelled path. -/
abbrev Stop := RealPath × Text

/-- The paths of the entries of a directory. -/
def entriesOf (fs : FileTree) (x : Stop) : List Text := (fs.namesIn x.1).map (Path.join x.2)

/-- A path of an entry that is taken up as a file. -/
structure Taken (fs : FileTree) (filter : PathFilter) (path : Text) : Prop where
  shown : filter.excludes path = false
  other : fs.isDirectory path = false
  source : isSource path = true

/-- A file that lies directly in one of some directories. -/
def LiesIn (fs : FileTree) (filter : PathFilter) (stops : List Stop) (path : Text) : Prop :=
  ∃ x ∈ stops, path ∈ entriesOf fs x ∧ Taken fs filter path

/-- A path from one of the inputs down to a directory; all directories passed on the way are
different from each other. -/
inductive Reached (fs : FileTree) (filter : PathFilter) (inputs : List Text) :
    (passed : List RealPath) → Stop → Prop
  | input {path D} : path ∈ inputs → fs.find path = .ok (D, .directory) →
      Reached fs filter inputs [] (D, path)
  | entry {passed x path D} : Reached fs filter inputs passed x → x.1 ∉ passed →
      path ∈ entriesOf fs x → filter.excludes path = false → fs.find path = .ok (D, .directory) →
      Reached fs filter inputs (x.1 :: passed) (D, path)

/-- What a search does from one state to the next: it enters the directories `stops`, the last
first, and takes up `own` files besides those in them. -/
structure Explores (fs : FileTree) (filter : PathFilter) (inputs : List Text) (own : Text → Prop)
    (stops : List Stop) (p q : Progress) : Prop where
  visited : q.visited = stops.map Prod.fst ++ p.visited
  nodup : (stops.map Prod.fst).Nodup
  fresh : ∀ x ∈ stops, x.1 ∉ p.visited
  files : ∀ path, path ∈ q.files ↔ path ∈ p.files ∨ own path ∨ LiesIn fs filter stops path
  closed : ∀ x ∈ stops, ∀ path ∈ entriesOf fs x, filter.excludes path = false →
    ∀ D, fs.find path = .ok (D, .directory) → D ∈ q.visited
  reached : ∀ x ∈ stops, ∃ passed, Reached fs filter inputs passed x ∧ x.1 ∉ passed

variable {fs : FileTree} {filter : PathFilter} {inputs : List Text} {own own' : Text → Prop}
  {stops stops' : List Stop} {p q r : Progress}

theorem Reached.find {passed : List RealPath} {x : Stop} (h : Reached fs filter inputs passed x) :
    fs.find x.2 = .ok (x.1, .directory) := by
  cases h <;> assumption

theorem liesIn_append {path : Text} : LiesIn fs filter (stops ++ stops') path ↔
    LiesIn fs filter stops path ∨ LiesIn fs filter stops' path := by
  simp only [LiesIn, List.mem_append, or_and_right, exists_or]

theorem liesIn_singleton {x : Stop} {path : Text} : LiesIn fs filter [x] path ↔
    path ∈ entriesOf fs x ∧ Taken fs filter path := by
  simp only [LiesIn, List.mem_singleton, exists_eq_left]

namespace Explores

theorem subset (h : Explores fs filter inputs own stops p q) : p.visited ⊆ q.visited := by
  rw [h.visited]
  exact List.subset_append_right _ _

theorem refl (p : Progress) : Explores fs filter inputs (fun _ => False) [] p p := by
  constructor <;> simp [LiesIn]

theorem add (p : Progress) (path : Text) :
    Explores fs filter inputs (· = path) [] p (p.add path) := by
  constructor <;> simp [Progress.add, LiesIn, or_comm]

theorem congr (h : Explores fs filter inputs own stops p q) (hown : ∀ path, own path ↔ own' path) :
    Explores fs filter inputs own' stops p q :=
  { h with files := fun path => by rw [h.files, hown] }

theorem pass {path : Text} {P : Text → Prop}
    (h : Explores fs filter inputs (fun _ => False) stops p q) (hpath : ¬P path) :
    Explores fs filter inputs (fun path' => path' = path ∧ P path') stops p q :=
  h.congr fun path' => by
    constructor
    · exact False.elim
    · rintro ⟨rfl, hP⟩
      exact hpath hP

theorem take {path : Text} {P : Text → Prop} (p : Progress) (hpath : P path) :
    Explores fs filter inputs (fun path' => path' = path ∧ P path') [] p (p.add path) :=
  (add p path).congr fun path' => by
    constructor
    · rintro rfl
      exact ⟨rfl, hpath⟩
    · exact And.left

theorem trans (h : Explores fs filter inputs own stops p q)
    (h' : Explores fs filter inputs own' stops' q r) :
    Explores fs filter inputs (fun path => own path ∨ own' path) (stops' ++ stops) p r where
  visited := by rw [h'.visited, h.visited, List.map_append, List.append_assoc]
  nodup := by
    rw [List.map_append, List.nodup_append]
    refine ⟨h'.nodup, h.nodup, fun D hD' E hE heq => ?_⟩
    obtain ⟨x, hx, rfl⟩ := List.mem_map.mp hD'
    refine h'.fresh x hx ?_
    rw [h.visited, heq]
    exact List.mem_append_left _ hE
  fresh := by
    intro x hx
    rcases List.mem_append.mp hx with hx | hx
    · exact fun hmem => h'.fresh x hx (h.subset hmem)
    · exact h.fresh x hx
  files := by
    intro path
    rw [h'.files, h.files, liesIn_append]
    tauto
  closed := by
    intro x hx path hpath hshown D hD
    rcases List.mem_append.mp hx with hx | hx
    · exact h'.closed x hx path hpath hshown D hD
    · exact h'.subset (h.closed x hx path hpath hshown D hD)
  reached := by
    intro x hx
    rcases List.mem_append.mp hx with hx | hx
    · exact h'.reached x hx
    · exact h.reached x hx

/-- Going through the entries of a directory is what is left to do once it is entered. -/
theorem enter {x : Stop} {passed : List RealPath}
    (h : Explores fs filter inputs (fun path => path ∈ entriesOf fs x ∧ Taken fs filter path) stops
      { p with visited := x.1 :: p.visited } q)
    (hnew : x.1 ∉ p.visited) (hreached : Reached fs filter inputs passed x)
    (hpassed : x.1 ∉ passed)
    (hclosed : ∀ path ∈ entriesOf fs x, filter.excludes path = false →
      ∀ D, fs.find path = .ok (D, .directory) → D ∈ q.visited) :
    Explores fs filter inputs (fun _ => False) (stops ++ [x]) p q where
  visited := by simp [h.visited]
  nodup := by
    rw [List.map_append, List.map_singleton, List.nodup_append]
    refine ⟨h.nodup, List.nodup_singleton _, fun D hD E hE heq => ?_⟩
    obtain ⟨y, hy, rfl⟩ := List.mem_map.mp hD
    obtain rfl := List.mem_singleton.mp hE
    exact h.fresh y hy (heq ▸ List.mem_cons_self)
  fresh := by
    intro y hy
    rcases List.mem_append.mp hy with hy | hy
    · exact fun hmem => h.fresh y hy (List.mem_cons_of_mem _ hmem)
    · obtain rfl := List.mem_singleton.mp hy
      exact hnew
  files := by
    intro path
    rw [h.files, liesIn_append, liesIn_singleton]
    tauto
  closed := by
    intro y hy
    rcases List.mem_append.mp hy with hy | hy
    · exact h.closed y hy
    · obtain rfl := List.mem_singleton.mp hy
      exact hclosed
  reached := by
    intro y hy
    rcases List.mem_append.mp hy with hy | hy
    · exact h.reached y hy
    · obtain rfl := List.mem_singleton.mp hy
      exact ⟨passed, hreached, hpassed⟩

end Explores

section

variable {enter : Progress → Text → Except Error Progress} {base : List RealPath}

/-- Taking up one path explores what it leads to. -/
theorem visit_explores {path : Text}
    (henter : filter.excludes path = false → ∀ D, fs.find path = .ok (D, .directory) →
      ∃ q stops, enter p path = .ok q ∧
        Explores fs filter inputs (fun _ => False) stops p q ∧ D ∈ q.visited) :
    ∃ q stops, (∀ paths, visitAll fs filter enter p (path :: paths) =
        visitAll fs filter enter q paths) ∧
      Explores fs filter inputs (fun path' => path' = path ∧ Taken fs filter path') stops p q ∧
      (filter.excludes path = false → ∀ D, fs.find path = .ok (D, .directory) → D ∈ q.visited) := by
  cases hexcluded : filter.excludes path with
  | true =>
    refine ⟨p, [], fun paths => by rw [visitAll, if_pos hexcluded],
      (Explores.refl p).pass fun htaken => ?_, fun h => by cases h⟩
    rw [htaken.shown] at hexcluded
    cases hexcluded
  | false =>
    cases hdirectory : fs.isDirectory path with
    | true =>
      obtain ⟨D, hD⟩ := FileTree.isDirectory_iff_find.mp hdirectory
      obtain ⟨q, stops, hq, hexplores, hmem⟩ := henter hexcluded D hD
      refine ⟨q, stops, fun paths => ?_, hexplores.pass fun htaken => ?_, fun _ E hE => ?_⟩
      · rw [visitAll, if_neg (by rw [hexcluded]; decide), if_pos hdirectory, hq]
      · rw [htaken.other] at hdirectory
        cases hdirectory
      · obtain ⟨rfl, -⟩ := Prod.mk.inj (Except.ok.inj (hE.symm.trans hD))
        exact hmem
    | false =>
      have hnone : ∀ D, fs.find path ≠ .ok (D, .directory) := fun D hD => by
        rw [FileTree.isDirectory_iff_find.mpr ⟨D, hD⟩] at hdirectory
        cases hdirectory
      cases hsource : isSource path with
      | true =>
        refine ⟨p.add path, [], fun paths => ?_, .take p ⟨hexcluded, hdirectory, hsource⟩,
          fun _ D hD => absurd hD (hnone D)⟩
        simp [visitAll, hexcluded, hdirectory, hsource]
      | false =>
        refine ⟨p, [], fun paths => ?_, (Explores.refl p).pass fun htaken => ?_,
          fun _ D hD => absurd hD (hnone D)⟩
        · simp [visitAll, hexcluded, hdirectory, hsource]
        · rw [htaken.source] at hsource
          cases hsource

/-- Going through paths explores what each of them leads to. -/
theorem visitAll_explores {paths : List Text}
    (henter : ∀ p, base ⊆ p.visited → ∀ path ∈ paths, filter.excludes path = false →
      ∀ D, fs.find path = .ok (D, .directory) → ∃ q stops, enter p path = .ok q ∧
        Explores fs filter inputs (fun _ => False) stops p q ∧ D ∈ q.visited)
    (hp : base ⊆ p.visited) :
    ∃ q stops, visitAll fs filter enter p paths = .ok q ∧
      Explores fs filter inputs (fun path => path ∈ paths ∧ Taken fs filter path) stops p q ∧
      ∀ path ∈ paths, filter.excludes path = false →
        ∀ D, fs.find path = .ok (D, .directory) → D ∈ q.visited := by
  induction paths generalizing p with
  | nil => exact ⟨p, [], rfl, (Explores.refl p).congr (by simp), by simp⟩
  | cons path paths ih =>
    obtain ⟨p', stops, hstep, hfirst, hhead⟩ :=
      visit_explores (henter p hp path List.mem_cons_self)
    obtain ⟨q, stops', hq, hrest, htail⟩ := ih
      (fun p hp path' hpath' => henter p hp path' (List.mem_cons_of_mem path hpath'))
      (List.Subset.trans hp hfirst.subset)
    refine ⟨q, stops' ++ stops, (hstep paths).trans hq, (hfirst.trans hrest).congr fun path' => ?_,
      fun path' hpath' hshown D hD => ?_⟩
    · simp only [List.mem_cons, or_and_right]
    · rcases List.mem_cons.mp hpath' with rfl | hpath'
      · exact hrest.subset (hhead hshown D hD)
      · exact htail path' hpath' hshown D hD

end

/-- The real paths at which a tree can have entries. -/
def places (fs : FileTree) : Finset RealPath := insert [] (fs.entries.map Prod.fst).toFinset

theorem mem_places {D : RealPath} {e : Entry} (h : fs.entry? D = some e) : D ∈ places fs := by
  rw [places, Finset.mem_insert, List.mem_toFinset]
  by_cases hroot : D = []
  · exact Or.inl hroot
  · exact Or.inr (List.mem_map_of_mem (FileTree.mem_entries_of_eq_some hroot h))

/-- The real paths that a search has not entered. -/
def unvisited (fs : FileTree) (visited : List RealPath) : Finset RealPath :=
  places fs \ visited.toFinset

theorem card_unvisited_lt_depthFor (fs : FileTree) (visited : List RealPath) :
    (unvisited fs visited).card < depthFor fs := by
  calc (unvisited fs visited).card
    _ ≤ (places fs).card := Finset.card_le_card Finset.sdiff_subset
    _ ≤ (fs.entries.map Prod.fst).toFinset.card + 1 := Finset.card_insert_le _ _
    _ ≤ (fs.entries.map Prod.fst).length + 1 :=
      Nat.add_le_add_right (List.toFinset_card_le _) 1
    _ < depthFor fs := by simp [depthFor]

theorem unvisited_subset (fs : FileTree) {visited visited' : List RealPath}
    (h : visited ⊆ visited') : unvisited fs visited' ⊆ unvisited fs visited :=
  Finset.sdiff_subset_sdiff (Finset.Subset.refl _) fun _ hD =>
    List.mem_toFinset.mpr (h (List.mem_toFinset.mp hD))

theorem card_unvisited_le (fs : FileTree) {visited visited' : List RealPath}
    (h : visited ⊆ visited') : (unvisited fs visited').card ≤ (unvisited fs visited).card :=
  Finset.card_le_card (unvisited_subset fs h)

theorem card_unvisited_cons {visited : List RealPath} {D : RealPath}
    (hD : fs.entry? D = some .directory) (hnew : D ∉ visited) :
    (unvisited fs (D :: visited)).card < (unvisited fs visited).card := by
  refine Finset.card_lt_card ⟨unvisited_subset fs (List.subset_cons_self D visited), fun h => ?_⟩
  have hmem : D ∈ unvisited fs visited := by
    simp only [unvisited, Finset.mem_sdiff, List.mem_toFinset]
    exact ⟨mem_places hD, hnew⟩
  have hleft := h hmem
  simp [unvisited] at hleft

theorem list_of_find {path : Text} {D : RealPath} (h : fs.find path = .ok (D, .directory)) :
    fs.realPath path = .ok D ∧ fs.list path = .ok (fs.namesIn D) := by
  simp only [FileTree.realPath, FileTree.list, h, Except.map, and_self]

theorem walk_again {n : Nat} {path : Text} {D : RealPath}
    (h : fs.find path = .ok (D, .directory)) (hvisited : D ∈ p.visited) :
    walk fs filter (n + 1) p path = .ok p := by
  simp [walk, (list_of_find h).1, hvisited]

theorem walk_new {n : Nat} {path : Text} {D : RealPath}
    (h : fs.find path = .ok (D, .directory)) (hnew : D ∉ p.visited) :
    walk fs filter (n + 1) p path = visitAll fs filter (walk fs filter n)
      { p with visited := D :: p.visited } (entriesOf fs (D, path)) := by
  simp [walk, list_of_find h, hnew, entriesOf]

/-- A search of a directory enters it, unless it was entered before, and explores what lies below
it. The depth bounds the directories that are still to be entered. -/
theorem walk_explores {n : Nat} {passed : List RealPath} {x : Stop}
    (hreached : Reached fs filter inputs passed x) (hpassed : passed ⊆ p.visited)
    (hn : (unvisited fs p.visited).card < n) :
    ∃ q stops, walk fs filter n p x.2 = .ok q ∧
      Explores fs filter inputs (fun _ => False) stops p q ∧ x.1 ∈ q.visited := by
  induction n generalizing p passed x with
  | zero => exact absurd hn (Nat.not_lt_zero _)
  | succ n ih =>
    have hfind := hreached.find
    by_cases hvisited : x.1 ∈ p.visited
    · exact ⟨p, [], walk_again hfind hvisited, .refl p, hvisited⟩
    have hnew : x.1 ∉ passed := fun hmem => hvisited (hpassed hmem)
    have hless := card_unvisited_cons (FileTree.find_eq_ok_iff.mp hfind).2 hvisited
    have henter : ∀ r : Progress, x.1 :: p.visited ⊆ r.visited → ∀ path ∈ entriesOf fs x,
        filter.excludes path = false → ∀ D, fs.find path = .ok (D, .directory) →
        ∃ q stops, walk fs filter n r path = .ok q ∧
          Explores fs filter inputs (fun _ => False) stops r q ∧ D ∈ q.visited := by
      intro r hr path hpath hshown D hD
      have hcard := card_unvisited_le fs hr
      exact ih (.entry hreached hnew hpath hshown hD)
        (List.Subset.trans (List.cons_subset_cons x.1 hpassed) hr) (by omega)
    obtain ⟨q, stops, hq, hexplores, hclosed⟩ := visitAll_explores
      (p := { p with visited := x.1 :: p.visited }) henter (List.Subset.refl _)
    refine ⟨q, stops ++ [x], (walk_new hfind hvisited).trans hq,
      hexplores.enter hvisited hreached hnew hclosed, ?_⟩
    exact hexplores.subset List.mem_cons_self

theorem takeInput_explores {input : Text} (hmem : input ∈ inputs)
    (hinput : fs.isFile input = true ∨ fs.isDirectory input = true) :
    ∃ q stops, takeInput fs filter p input = .ok q ∧
      Explores fs filter inputs
        (fun path => path = input ∧ fs.isFile path = true ∧ filter.excludes path = false)
        stops p q ∧
      ∀ D, fs.find input = .ok (D, .directory) → D ∈ q.visited := by
  cases hfile : fs.isFile input with
  | true =>
    have hother : ∀ D, fs.find input ≠ .ok (D, .directory) := fun D hD => by
      simp [FileTree.isFile, hD] at hfile
    cases hexcluded : filter.excludes input with
    | true =>
      refine ⟨p, [], by simp [takeInput, hfile, hexcluded], (Explores.refl p).pass ?_,
        fun D hD => absurd hD (hother D)⟩
      rintro ⟨-, hshown⟩
      rw [hexcluded] at hshown
      cases hshown
    | false =>
      exact ⟨p.add input, [], by simp [takeInput, hfile, hexcluded], .take p ⟨hfile, hexcluded⟩,
        fun D hD => absurd hD (hother D)⟩
  | false =>
    have hdirectory : fs.isDirectory input = true := by simpa [hfile] using hinput
    obtain ⟨D, hD⟩ := FileTree.isDirectory_iff_find.mp hdirectory
    obtain ⟨q, stops, hq, hexplores, hentered⟩ := walk_explores (p := p) (n := depthFor fs)
      (.input hmem hD) (List.nil_subset _)
      (card_unvisited_lt_depthFor fs _)
    refine ⟨q, stops, by simpa [takeInput, hfile, hdirectory] using hq, hexplores.pass ?_,
      fun E hE => ?_⟩
    · rintro ⟨hfile', -⟩
      rw [hfile] at hfile'
      cases hfile'
    · obtain ⟨rfl, -⟩ := Prod.mk.inj (Except.ok.inj (hE.symm.trans hD))
      exact hentered

theorem takeInputs_explores {taken : List Text}
    (htaken : ∀ input ∈ taken, input ∈ inputs ∧
      (fs.isFile input = true ∨ fs.isDirectory input = true)) :
    ∃ q stops, takeInputs fs filter p taken = .ok q ∧
      Explores fs filter inputs
        (fun path => path ∈ taken ∧ fs.isFile path = true ∧ filter.excludes path = false)
        stops p q ∧
      ∀ input ∈ taken, ∀ D, fs.find input = .ok (D, .directory) → D ∈ q.visited := by
  induction taken generalizing p with
  | nil => exact ⟨p, [], rfl, (Explores.refl p).congr (by simp), by simp⟩
  | cons input taken ih =>
    obtain ⟨hmem, hinput⟩ := htaken input List.mem_cons_self
    obtain ⟨p', stops, hp', hfirst, hhead⟩ := takeInput_explores (p := p)
      hmem hinput
    obtain ⟨q, stops', hq, hrest, htail⟩ := ih (p := p')
      fun other hother => htaken other (List.mem_cons_of_mem input hother)
    refine ⟨q, stops' ++ stops, by rw [takeInputs, hp']; exact hq,
      (hfirst.trans hrest).congr fun path => ?_, fun other hother D hD => ?_⟩
    · simp only [List.mem_cons, or_and_right]
    · rcases List.mem_cons.mp hother with rfl | hother
      · exact hrest.subset (hhead D hD)
      · exact htail other hother D hD

/-- Existing inputs are collected without an error, and nothing but the search decides about the
files. -/
theorem collect_explores
    (hinputs : ∀ input ∈ inputs, fs.isFile input = true ∨ fs.isDirectory input = true) :
    ∃ q stops, takeInputs fs filter ⟨[], []⟩ inputs = .ok q ∧
      collect fs filter inputs = .ok (Path.sorted q.files.reverse) ∧
      Explores fs filter inputs
        (fun path => path ∈ inputs ∧ fs.isFile path = true ∧ filter.excludes path = false)
        stops ⟨[], []⟩ q ∧
      ∀ input ∈ inputs, ∀ D, fs.find input = .ok (D, .directory) → D ∈ q.visited := by
  obtain ⟨q, stops, hq, hrest⟩ := takeInputs_explores (p := ⟨[], []⟩)
    fun input hinput => ⟨hinput, hinputs input hinput⟩
  exact ⟨q, stops, hq, by rw [collect, hq], hrest⟩

section

variable {enter enter' : Progress → Text → Except Error Progress} {base : List RealPath}

theorem visitAll_subset {paths : List Text}
    (henter : ∀ p path q, enter p path = .ok q → p.visited ⊆ q.visited)
    (h : visitAll fs filter enter p paths = .ok q) : p.visited ⊆ q.visited := by
  induction paths generalizing p with
  | nil =>
    obtain rfl := Except.ok.inj h
    exact List.Subset.refl _
  | cons path paths ih =>
    rw [visitAll] at h
    split at h
    · exact ih h
    · split at h
      · split at h
        · cases h
        · rename_i p' hp'
          exact List.Subset.trans (henter p path p' hp') (ih h)
      · split at h
        · exact ih (p := p.add path) h
        · exact ih h

/-- Searches that agree wherever certain directories have been entered take up paths alike. -/
theorem visitAll_congr {paths : List Text}
    (hagree : ∀ p, base ⊆ p.visited → ∀ path, enter p path = enter' p path)
    (henter : ∀ p path q, enter p path = .ok q → p.visited ⊆ q.visited)
    (hp : base ⊆ p.visited) :
    visitAll fs filter enter p paths = visitAll fs filter enter' p paths := by
  induction paths generalizing p with
  | nil => rfl
  | cons path paths ih =>
    rw [visitAll, visitAll, ← hagree p hp path]
    split
    · exact ih hp
    · split
      · split
        · rfl
        · rename_i p' hp'
          exact ih (List.Subset.trans hp (henter p path p' hp'))
      · split
        · exact ih hp
        · exact ih hp

end

theorem walk_subset {n : Nat} {path : Text} (h : walk fs filter n p path = .ok q) :
    p.visited ⊆ q.visited := by
  induction n generalizing p q path with
  | zero =>
    obtain rfl := Except.ok.inj h
    exact List.Subset.refl _
  | succ n ih =>
    rw [walk] at h
    split at h
    · cases h
    · rename_i D hD
      split at h
      · obtain rfl := Except.ok.inj h
        exact List.Subset.refl _
      · split at h
        · cases h
        · exact List.Subset.trans (List.subset_cons_self D p.visited)
            (visitAll_subset (fun p path q => ih) h)

/-- A search ends by itself: when the depth exceeds the number of directories that are still to be
entered, a greater depth changes nothing. -/
theorem walk_deeper {m n : Nat} (hn : (unvisited fs p.visited).card < n) (hm : n ≤ m)
    (path : Text) : walk fs filter m p path = walk fs filter n p path := by
  induction n generalizing m p path with
  | zero => exact absurd hn (Nat.not_lt_zero _)
  | succ n ih =>
    obtain ⟨m, rfl⟩ : ∃ k, m = k + 1 := ⟨m - 1, by omega⟩
    cases hfind : fs.find path with
    | error e => simp [walk, FileTree.realPath, hfind, Except.map]
    | ok found =>
      obtain ⟨D, e⟩ := found
      by_cases hvisited : D ∈ p.visited
      · simp [walk, FileTree.realPath, hfind, Except.map, hvisited]
      · cases e with
        | directory =>
          have hless := card_unvisited_cons (FileTree.find_eq_ok_iff.mp hfind).2 hvisited
          rw [walk_new hfind hvisited, walk_new hfind hvisited]
          refine visitAll_congr (fun r (hr : D :: p.visited ⊆ r.visited) path' => ?_)
            (fun r path' q => walk_subset) (List.Subset.refl _)
          have hcard := card_unvisited_le fs hr
          exact ih (by omega) (by omega) path'
        | _ => simp [walk, FileTree.realPath, FileTree.list, hfind, Except.map, hvisited]

end DocCoverage.Discovery
