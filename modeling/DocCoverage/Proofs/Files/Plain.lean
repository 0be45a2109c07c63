import DocCoverage.Proofs.Files.Spelling
import DocCoverage.Proofs.Text.Cut

/-!
# Plain paths

A plain path is one name after the other with single slashes between them. It is the only plain
spelling of its components, and where there are no links it leads to the real path of its names.
-/
namespace DocCoverage

namespace Path

/-- No dots, no doubled slashes, and none at the front or at the end. -/
def IsPlain (p : Text) : Prop := ∀ t ∈ Text.splitOn '/' p, t ≠ [] ∧ t ≠ "." ∧ t ≠ ".."

instance (p : Text) : Decidable (IsPlain p) :=
  inferInstanceAs (Decidable (∀ t ∈ Text.splitOn '/' p, t ≠ [] ∧ t ≠ "." ∧ t ≠ ".."))

/-- The path that leads along some names from another one. -/
def below (dir : Text) (names : List Text) : Text := dir ++ names.flatMap ('/' :: ·)

variable {p q dir t : Text} {names : List Text}

@[simp] theorem below_nil (dir : Text) : below dir [] = dir := List.append_nil dir

theorem below_cons (dir t : Text) (names : List Text) :
    below dir (t :: names) = below (dir ++ '/' :: t) names := by
  rw [below, below, List.flatMap_cons, List.append_assoc]

theorem below_concat (dir : Text) (names : List Text) (t : Text) :
    below dir (names ++ [t]) = below dir names ++ '/' :: t := by
  simp only [below, List.flatMap_append, List.flatMap_singleton, List.append_assoc]

theorem splitOn_concat (dir : Text) (ht : IsName t) :
    Text.splitOn '/' (dir ++ '/' :: t) = Text.splitOn '/' dir ++ [t] := by
  rw [Text.splitOn_append_cons, Text.splitOn_eq_singleton ht.slash]

theorem splitOn_below (dir : Text) (hnames : ∀ t ∈ names, IsName t) :
    Text.splitOn '/' (below dir names) = Text.splitOn '/' dir ++ names := by
  induction names generalizing dir with
  | nil => rw [below_nil, List.append_nil]
  | cons t names ih =>
    rw [below_cons, ih _ fun u hu => hnames u (List.mem_cons_of_mem t hu),
      splitOn_concat dir (hnames t List.mem_cons_self), List.append_assoc]
    rfl

namespace IsPlain

theorem pieces (hp : IsPlain p) : pieces p = Text.splitOn '/' p := by
  rw [Path.pieces, List.filter_eq_self]
  intro t ht
  simpa using (hp t ht).1

theorem ne_nil (hp : IsPlain p) : p ≠ [] := by
  rintro rfl
  exact (hp [] (List.mem_singleton_self _)).1 rfl

theorem relative (hp : IsPlain p) : isAbsolute p = false := by
  rw [Bool.eq_false_iff]
  intro habsolute
  obtain ⟨rest, rfl⟩ : ∃ rest, p = [] ++ '/' :: rest := by
    cases p with
    | nil => cases habsolute
    | cons c rest => exact ⟨rest, by rw [isAbsolute] at habsolute; simpa using habsolute⟩
  refine (hp [] ?_).1 rfl
  rw [Text.splitOn_append_cons]
  exact List.mem_append_left _ (List.mem_singleton_self _)

theorem getLast?_ne_slash (hp : IsPlain p) : p.getLast? ≠ some '/' := by
  intro hlast
  obtain ⟨front, rfl⟩ := List.getLast?_eq_some_iff.mp hlast
  refine (hp [] ?_).1 rfl
  rw [Text.splitOn_append_cons]
  exact List.mem_append_right _ (List.mem_singleton_self _)

theorem wanted (hp : IsPlain p) : FileTree.wanted p = Text.splitOn '/' p := by
  rw [FileTree.wanted, if_neg (by simpa using hp.getLast?_ne_slash), hp.pieces]

theorem join (hdir : IsPlain dir) (ht : IsName t) : join dir t = dir ++ '/' :: t := by
  have hempty : dir.isEmpty = false := by simpa using hdir.ne_nil
  rw [Path.join, ht.relative, hempty, if_neg Bool.false_ne_true,
    if_neg (by simpa using hdir.getLast?_ne_slash), List.append_assoc]
  rfl

theorem below (hdir : IsPlain dir) (hnames : ∀ t ∈ names, IsName t) :
    IsPlain (below dir names) := by
  intro t ht
  rw [splitOn_below dir hnames] at ht
  rcases List.mem_append.mp ht with ht | ht
  · exact hdir t ht
  · exact ⟨(hnames t ht).ne_nil, (hnames t ht).ne_dot, (hnames t ht).ne_dots⟩

theorem concat (hdir : IsPlain dir) (ht : IsName t) : IsPlain (dir ++ '/' :: t) := by
  rw [← below_nil (dir ++ '/' :: t), ← below_cons]
  exact hdir.below fun u hu => List.mem_singleton.mp hu ▸ ht

theorem components (hp : IsPlain p) : components p = (Text.splitOn '/' p).map .name := by
  have hinner : ∀ ts : List Text, (∀ t ∈ ts, t ≠ [] ∧ t ≠ "." ∧ t ≠ "..") →
      inner ts = ts.map Component.name := by
    intro ts hts
    induction ts with
    | nil => rfl
    | cons t ts ih =>
      obtain ⟨-, hdot, hdots⟩ := hts t List.mem_cons_self
      rw [inner, if_neg (by simpa using hdot), if_neg (by simpa using hdots),
        ih fun u hu => hts u (List.mem_cons_of_mem t hu), List.map_cons]
  rw [Path.components, hp.relative, if_neg Bool.false_ne_true, hp.pieces]
  split
  · rename_i hnil
    rw [hnil, List.map_nil]
  · rename_i t ts hcons
    obtain ⟨-, hdot, -⟩ := hp t (hcons ▸ List.mem_cons_self)
    rw [if_neg (by simpa using hdot), hcons, hinner]
    exact hcons ▸ hp

/-- Each path has one plain spelling. -/
theorem eq_of_components (hp : IsPlain p) (hq : IsPlain q)
    (h : Path.components p = Path.components q) : p = q := by
  rw [hp.components, hq.components] at h
  exact Text.splitOn_injective '/' (List.map_injective_iff.mpr (fun _ _ => Component.name.inj) h)

end IsPlain

end Path

def Entry.isLink : Entry → Bool
  | .link _ => true
  | _ => false

namespace FileTree

/-- There are no links in the tree. -/
def Linkless (fs : FileTree) : Prop := ∀ x ∈ fs.entries, ∀ target, x.2 ≠ .link target

instance (e : Entry) : Decidable (∀ target, e ≠ .link target) :=
  decidable_of_iff (e.isLink = false) (by cases e <;> simp [Entry.isLink])

instance (fs : FileTree) : Decidable fs.Linkless :=
  inferInstanceAs (Decidable (∀ x ∈ fs.entries, ∀ target, x.2 ≠ .link target))

variable {fs : FileTree} {follow : Bool} {dir r : RealPath} {p t : Text} {ts us : List Text}
  {k : Nat} {e : Entry}

theorem Linkless.entry?_ne (h : fs.Linkless) (r : RealPath) (target : Text) :
    fs.entry? r ≠ some (.link target) := by
  intro hlink
  by_cases hr : r = []
  · subst hr
    cases hlink
  · exact h _ (mem_entries_of_eq_some hr hlink) target rfl

/-- Without links and dots a way goes down along its names. -/
theorem Leads.straight (h : Leads fs follow dir ts k r) (hfs : fs.Linkless)
    (hts : ∀ t ∈ ts, t ≠ "." ∧ t ≠ "..") : k = 0 ∧ r = dir ++ ts := by
  induction h with
  | here dir => exact ⟨rfl, (List.append_nil dir).symm⟩
  | dot => exact absurd rfl (hts _ List.mem_cons_self).1
  | up => exact absurd rfl (hts _ List.mem_cons_self).2
  | missing => exact ⟨rfl, rfl⟩
  | into _ _ _ _ _ ih =>
    obtain ⟨rfl, rfl⟩ := ih fun t ht => hts t (List.mem_cons_of_mem _ ht)
    exact ⟨rfl, by rw [List.append_assoc]; rfl⟩
  | stay _ _ htarget => exact absurd htarget (hfs.entry?_ne _ _)
  | link _ _ htarget => exact absurd htarget (hfs.entry?_ne _ _)

/-- The real path of a plain one. -/
def placeOf (fs : FileTree) (p : Text) : RealPath := fs.here ++ Text.splitOn '/' p

theorem placeOf_below (fs : FileTree) (p : Text) (hnames : ∀ t ∈ ts, Path.IsName t) :
    fs.placeOf (Path.below p ts) = fs.placeOf p ++ ts := by
  rw [placeOf, Path.splitOn_below p hnames, placeOf, List.append_assoc]

theorem placeOf_concat (fs : FileTree) (p : Text) (ht : Path.IsName t) :
    fs.placeOf (p ++ '/' :: t) = fs.placeOf p ++ [t] := by
  rw [placeOf, Path.splitOn_concat p ht, placeOf, List.append_assoc]

theorem placeOf_injective (fs : FileTree) : Function.Injective fs.placeOf := fun _ _ h =>
  Text.splitOn_injective '/' (List.append_cancel_left h)

theorem origin_plain (hp : Path.IsPlain p) (dir : RealPath) : origin dir p = dir :=
  if_neg (by rw [hp.relative]; decide)

/-- Where a plain path leads without links. -/
theorem Linkless.leads_of_find (hfs : fs.Linkless) (hp : Path.IsPlain p)
    (h : fs.find p = .ok (r, e)) :
    r = fs.placeOf p ∧ Leads fs true fs.here (Text.splitOn '/' p) 0 (fs.placeOf p) := by
  obtain ⟨-, -, ⟨k, -, hleads⟩, -⟩ := find_eq_ok_iff_leads.mp h
  rw [hp.wanted, origin_plain hp] at hleads
  obtain ⟨rfl, rfl⟩ := hleads.straight hfs fun t ht => (hp t ht).2
  exact ⟨rfl, hleads⟩

/-- What a directory has under a name is found by the path below it, unless that is too long. -/
theorem Linkless.find_concat (hfs : fs.Linkless) (hp : Path.IsPlain p)
    (ht : Path.IsEntryName fs.limits.name t) (h : fs.find p = .ok (dir, .directory))
    (hshort : Text.byteLength (p ++ '/' :: t) ≤ fs.limits.path)
    (he : fs.entry? (dir ++ [t]) = some e) :
    fs.find (p ++ '/' :: t) = .ok (dir ++ [t], e) := by
  obtain ⟨rfl, hleads⟩ := hfs.leads_of_find hp h
  have hentry := (find_eq_ok_iff_leads.mp h).2.2.2
  rw [← hp.pieces, ← origin_plain hp fs.here] at hleads
  rw [← hp.join ht.toIsName] at hshort ⊢
  rw [find_join_iff ht.toIsName h hleads]
  exact ⟨hshort, 0, Nat.zero_le _, .into hentry ht.toIsProper he
    (fun target htarget => hfs.entry?_ne _ target (htarget ▸ he)) (.here _), he⟩

/-- What is found below a plain path lies in a directory. -/
theorem Linkless.directory_of_find_below (hfs : fs.Linkless) (hp : Path.IsPlain p)
    (hts : ts ≠ []) (hnames : ∀ t ∈ ts, Path.IsName t)
    (h : fs.find (Path.below p ts) = .ok (r, e)) :
    fs.find p = .ok (fs.placeOf p, .directory) := by
  obtain ⟨-, hall⟩ := hfs.leads_of_find (hp.below hnames) h
  have hshort := (find_eq_ok_iff_leads.mp h).2.1
  rw [Path.below, Text.byteLength_append] at hshort
  rw [Path.splitOn_below p hnames] at hall
  obtain ⟨i, j, mid, -, hfirst, hsecond⟩ := hall.exists_mid hts
  obtain ⟨rfl, rfl⟩ := hfirst.straight hfs fun t ht => (hp t ht).2
  refine find_eq_ok_iff_leads.mpr ⟨hp.ne_nil, by omega, ⟨0, Nat.zero_le _, ?_⟩,
    hsecond.directory hts⟩
  rw [hp.wanted, origin_plain hp]
  exact hfirst

theorem find_of_exists (h : fs.exists p = true) : ∃ r e, fs.find p = .ok (r, e) := by
  unfold «exists» at h
  cases hfind : fs.find p with
  | error err =>
    rw [hfind] at h
    cases h
  | ok found => exact ⟨found.1, found.2, rfl⟩

/-- If something is found below a plain path, something is found under the first name. -/
theorem Linkless.find_first (hfs : fs.Linkless) (hp : Path.IsPlain p)
    (hnames : ∀ u ∈ t :: ts, Path.IsName u) (h : fs.exists (Path.below p (t :: ts)) = true) :
    ∃ e, fs.find (p ++ '/' :: t) = .ok (fs.placeOf p ++ [t], e) := by
  have hname := hnames t List.mem_cons_self
  have hfirst := hp.concat hname
  rw [← fs.placeOf_concat p hname]
  rw [Path.below_cons] at h
  obtain ⟨r, e, hfind⟩ := find_of_exists h
  cases ts with
  | nil =>
    rw [Path.below_nil] at hfind
    exact ⟨e, (hfs.leads_of_find hfirst hfind).1 ▸ hfind⟩
  | cons u ts =>
    exact ⟨.directory, hfs.directory_of_find_below hfirst (List.cons_ne_nil u ts)
      (fun v hv => hnames v (List.mem_cons_of_mem t hv)) hfind⟩

end FileTree

end DocCoverage
