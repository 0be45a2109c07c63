import DocCoverage.Proofs.Files.Tree
import DocCoverage.Proofs.Text.Sorted
import DocCoverage.Proofs.Text.Split

/-!
# The names in a file tree

Every entry of a file tree that comes about by operations lies at a real path whose names are names
of entries. A directory lists exactly the names below it.
-/
namespace DocCoverage

variable {longest : Nat}

instance (t : Text) : Decidable (Path.IsProper longest t) :=
  decidable_of_iff (t ≠ "." ∧ t ≠ ".." ∧ Text.byteLength t ≤ longest)
    ⟨fun ⟨hdot, hdots, hshort⟩ => ⟨hdot, hdots, hshort⟩,
      fun h => ⟨h.ne_dot, h.ne_dots, h.short⟩⟩

instance (t : Text) : Decidable (Path.IsName t) :=
  decidable_of_iff (t ≠ "." ∧ t ≠ ".." ∧ t ≠ [] ∧ '/' ∉ t)
    ⟨fun ⟨hdot, hdots, hnil, hslash⟩ => ⟨hdot, hdots, hnil, hslash⟩,
      fun h => ⟨h.ne_dot, h.ne_dots, h.ne_nil, h.slash⟩⟩

instance (t : Text) : Decidable (Path.IsEntryName longest t) :=
  decidable_of_iff (Path.IsName t ∧ Text.byteLength t ≤ longest)
    ⟨fun ⟨hname, hshort⟩ => ⟨hname, hshort⟩, fun h => ⟨h.toIsName, h.short⟩⟩

theorem Path.mem_pieces {p t : Text} (h : t ∈ pieces p) : t ≠ [] ∧ '/' ∉ t := by
  obtain ⟨hmem, hne⟩ := List.mem_filter.mp h
  exact ⟨by simpa using hne, Text.not_mem_of_mem_splitOn hmem⟩

namespace FileTree

/-- A real path along names of entries. -/
def Named (fs : FileTree) (r : RealPath) : Prop := ∀ t ∈ r, Path.IsEntryName fs.limits.name t

instance (fs : FileTree) (r : RealPath) : Decidable (fs.Named r) :=
  inferInstanceAs (Decidable (∀ t ∈ r, Path.IsEntryName fs.limits.name t))

/-- All names on the way to an entry or to the working directory are names of entries. -/
structure WellNamed (fs : FileTree) : Prop where
  entries : ∀ x ∈ fs.entries, fs.Named x.1
  here : fs.Named fs.here

instance (fs : FileTree) : Decidable fs.WellNamed :=
  decidable_of_iff ((∀ x ∈ fs.entries, fs.Named x.1) ∧ fs.Named fs.here)
    ⟨fun ⟨hentries, hhere⟩ => ⟨hentries, hhere⟩, fun h => ⟨h.entries, h.here⟩⟩

variable {fs fs' : FileTree} {follow : Bool} {dir r : RealPath} {t : Text} {ts : List Text}
  {k : Nat} {e : Entry}

theorem nameIn_eq_some_iff {p : RealPath} : nameIn dir p = some t ↔ p = dir ++ [t] := by
  unfold nameIn
  split
  · rename_i name hname
    obtain ⟨front, rfl⟩ := List.getLast?_eq_some_iff.mp hname
    rw [List.dropLast_concat]
    constructor
    · intro h
      split at h
      · rename_i hdir
        rw [eq_of_beq hdir, Option.some.inj h]
      · cases h
    · intro h
      obtain ⟨rfl, hlast⟩ := List.append_inj' h rfl
      rw [List.singleton_inj.mp hlast, if_pos (beq_self_eq_true _)]
  · rename_i hnil
    obtain rfl := List.getLast?_eq_none_iff.mp hnil
    constructor
    · intro h
      cases h
    · intro h
      simp at h

theorem mem_namesIn : t ∈ fs.namesIn dir ↔ ∃ e, (dir ++ [t], e) ∈ fs.entries := by
  rw [namesIn, (Text.lists_sorted _).mem_iff, List.mem_filterMap]
  constructor
  · rintro ⟨⟨p, e⟩, hmem, hname⟩
    obtain rfl := nameIn_eq_some_iff.mp hname
    exact ⟨e, hmem⟩
  · rintro ⟨e, hmem⟩
    exact ⟨(dir ++ [t], e), hmem, nameIn_eq_some_iff.mpr rfl⟩

theorem mem_namesIn_iff_entry? : t ∈ fs.namesIn dir ↔ ∃ e, fs.entry? (dir ++ [t]) = some e := by
  rw [mem_namesIn]
  constructor
  · rintro ⟨e, hmem⟩
    unfold entry?
    rw [if_neg (by simp)]
    cases hlookup : fs.entries.lookup (dir ++ [t]) with
    | none => exact absurd (List.lookup_eq_none_iff.mp hlookup _ hmem) (by simp)
    | some e => exact ⟨e, rfl⟩
  · rintro ⟨e, he⟩
    exact ⟨e, mem_entries_of_eq_some (by simp) he⟩

theorem WellNamed.isEntryName (h : fs.WellNamed) (ht : t ∈ fs.namesIn dir) :
    Path.IsEntryName fs.limits.name t := by
  obtain ⟨e, hmem⟩ := mem_namesIn.mp ht
  exact h.entries _ hmem t (List.mem_append_right dir (List.mem_singleton_self t))

/-- A name that a directory lists leads to the entry itself, be it a link or not. -/
theorem WellNamed.leads_entry (h : fs.WellNamed) (hdir : fs.entry? dir = some .directory)
    (ht : t ∈ fs.namesIn dir) : Leads fs false dir [t] 0 (dir ++ [t]) := by
  have hproper := (h.isEntryName ht).toIsProper
  obtain ⟨e, he⟩ := mem_namesIn_iff_entry?.mp ht
  cases e with
  | link target => exact .stay hdir hproper he rfl
  | _ => exact .into hdir hproper he (fun target => by simp) (.here _)

theorem mem_wanted {p : Text} (h : t ∈ wanted p) : t ≠ [] ∧ '/' ∉ t := by
  unfold wanted at h
  split at h
  · rcases List.mem_append.mp h with h | h
    · exact Path.mem_pieces h
    · obtain rfl := List.mem_singleton.mp h
      decide
  · exact Path.mem_pieces h

theorem Named.origin (h : fs.Named dir) (p : Text) : fs.Named (origin dir p) := by
  unfold FileTree.origin
  split
  · exact fun t ht => absurd ht List.not_mem_nil
  · exact h

/-- A way along pieces of paths comes by names of entries alone. -/
theorem Leads.named (h : Leads fs follow dir ts k r) (hdir : fs.Named dir)
    (hts : ∀ t ∈ ts, t ≠ [] ∧ '/' ∉ t) : fs.Named r := by
  have hstep : ∀ {dir : RealPath} {t : Text} {ts : List Text}, fs.Named dir →
      Path.IsProper fs.limits.name t → (∀ u ∈ t :: ts, u ≠ [] ∧ '/' ∉ u) →
      fs.Named (dir ++ [t]) := by
    intro dir t ts hdir ht hts u hu
    rcases List.mem_append.mp hu with hu | hu
    · exact hdir u hu
    · obtain rfl := List.mem_singleton.mp hu
      obtain ⟨hnil, hslash⟩ := hts u List.mem_cons_self
      exact ⟨⟨ht.ne_dot, ht.ne_dots, hnil, hslash⟩, ht.short⟩
  induction h with
  | here dir => exact hdir
  | dot _ _ ih => exact ih hdir fun t ht => hts t (List.mem_cons_of_mem _ ht)
  | up _ _ _ ih =>
    exact ih (fun t ht => hdir t (List.dropLast_subset _ ht))
      fun t ht => hts t (List.mem_cons_of_mem _ ht)
  | missing _ ht _ => exact hstep hdir ht hts
  | into _ ht _ _ _ ih =>
    exact ih (hstep hdir ht hts) fun t ht => hts t (List.mem_cons_of_mem _ ht)
  | stay _ ht _ _ => exact hstep hdir ht hts
  | link _ _ _ _ _ _ ih =>
    refine ih (hdir.origin _) fun t ht => ?_
    rcases List.mem_append.mp ht with ht | ht
    · exact mem_wanted ht
    · exact hts t (List.mem_cons_of_mem _ ht)

theorem WellNamed.named_of_locate {p : Text} (h : fs.WellNamed)
    (hlocate : fs.locate follow p = .ok r) : fs.Named r := by
  unfold locate at hlocate
  split at hlocate
  · cases hlocate
  · split at hlocate
    · cases hlocate
    · obtain ⟨k, -, hleads⟩ := leads_of_locateFrom hlocate
      exact hleads.named (h.here.origin p) fun t ht => mem_wanted ht

/-! ### The operations -/

theorem WellNamed.set (h : fs.WellNamed) (hr : fs.Named r) (e : Entry) :
    (fs.set r e).WellNamed := by
  refine ⟨fun x hx => ?_, ?_⟩
  · unfold Named
    rw [limits_set]
    unfold FileTree.set at hx
    split at hx
    · obtain ⟨⟨q, f⟩, hq, rfl⟩ := List.mem_map.mp hx
      have hnames := h.entries (q, f) hq
      simp only
      split <;> exact hnames
    · rcases List.mem_append.mp hx with hx | hx
      · exact h.entries x hx
      · obtain rfl := List.mem_singleton.mp hx
        exact hr
  · unfold Named
    rw [here_set, limits_set]
    exact h.here

theorem WellNamed.remove (h : fs.WellNamed) (p : Text) : (fs.remove p).WellNamed := by
  unfold FileTree.remove
  split
  · exact ⟨fun x hx => h.entries x (List.mem_filter.mp hx).1, h.here⟩
  · exact h

theorem WellNamed.write {p : Text} {content : Bytes} (h : fs.WellNamed)
    (hwrite : fs.write p content = .ok fs') : fs'.WellNamed := by
  obtain ⟨r, hr, -, rfl⟩ := write_eq_ok hwrite
  exact h.set (h.named_of_locate hr) _

theorem WellNamed.makeAlong (h : fs.WellNamed) (hdir : fs.Named dir)
    (hts : ∀ t ∈ ts, t ≠ [] ∧ '/' ∉ t) : (fs.makeAlong dir ts).WellNamed := by
  induction ts generalizing fs dir with
  | nil => exact h
  | cons t ts ih =>
    rw [FileTree.makeAlong]
    split
    · exact h
    · rename_i place hplace
      obtain ⟨k, -, hleads⟩ := leads_of_locateFrom hplace
      have hnamed := hleads.named hdir fun u hu => by
        obtain rfl := List.mem_singleton.mp hu
        exact hts u List.mem_cons_self
      have hrest : ∀ u ∈ ts, u ≠ [] ∧ '/' ∉ u := fun u hu => hts u (List.mem_cons_of_mem t hu)
      simp only
      split
      · exact ih h hnamed hrest
      · refine ih (h.set hnamed _) ?_ hrest
        unfold Named
        rwa [limits_set]

theorem WellNamed.makeDirectory (h : fs.WellNamed) (p : Text) : (fs.makeDirectory p).WellNamed :=
  h.makeAlong (h.here.origin p) fun _ ht => Path.mem_pieces ht

theorem WellNamed.makeAbove (h : fs.WellNamed) (p : Text) : (fs.makeAbove p).WellNamed :=
  h.makeAlong (h.here.origin p) fun _ ht => Path.mem_pieces (List.dropLast_subset _ ht)

theorem WellNamed.makeLink (h : fs.WellNamed) (p target : Text) :
    (fs.makeLink p target).WellNamed := by
  unfold FileTree.makeLink
  simp only
  split
  · rename_i r hr
    exact (h.makeAbove p).set ((h.makeAbove p).named_of_locate hr) _
  · exact h.makeAbove p

theorem WellNamed.addFile (h : fs.WellNamed) (p : Text) (content : Bytes) :
    (fs.addFile p content).WellNamed := by
  unfold FileTree.addFile
  simp only
  split
  · rename_i fs' hfs'
    exact (h.makeAbove p).write hfs'
  · exact h.makeAbove p

/-- A tree that comes about by operations on an empty one. -/
inductive Built : FileTree → Prop
  | empty : Built empty
  | makeDirectory {fs : FileTree} (p : Text) : Built fs → Built (fs.makeDirectory p)
  | makeLink {fs : FileTree} (p target : Text) : Built fs → Built (fs.makeLink p target)
  | addFile {fs : FileTree} (p : Text) (content : Bytes) : Built fs → Built (fs.addFile p content)
  | remove {fs : FileTree} (p : Text) : Built fs → Built (fs.remove p)
  | write {fs fs' : FileTree} {p : Text} {content : Bytes} : Built fs →
      fs.write p content = .ok fs' → Built fs'

/-- No operation puts an entry anywhere else than under names of entries. -/
theorem Built.wellNamed (h : Built fs) : fs.WellNamed := by
  induction h with
  | empty => decide
  | makeDirectory p _ ih => exact ih.makeDirectory p
  | makeLink p target _ ih => exact ih.makeLink p target
  | addFile p content _ ih => exact ih.addFile p content
  | remove p _ ih => exact ih.remove p
  | write _ hwrite ih => exact ih.write hwrite

end FileTree

end DocCoverage
