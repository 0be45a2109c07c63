import DocCoverage.Proofs.Files.Names
import DocCoverage.Proofs.Files.Paths

/-!
# Spellings of paths

A path below another one has one more piece and one more component. Paths with the same components
have the same pieces but for dots.
-/
namespace DocCoverage

namespace Path

variable {p q dir t u : Text} {ts us : List Text}

theorem IsName.pieces (ht : IsName t) : pieces t = [t] := by
  rw [Path.pieces, Text.splitOn_eq_singleton ht.slash]
  simpa using ht.ne_nil

theorem IsName.relative (ht : IsName t) : isAbsolute t = false := by
  have hslash := ht.slash
  cases t with
  | nil => rfl
  | cons c t =>
    have hc : c ≠ '/' := fun h => hslash (h ▸ List.mem_cons_self)
    simpa [isAbsolute] using hc

theorem pieces_append_slash (p q : Text) : pieces (p ++ '/' :: q) = pieces p ++ pieces q := by
  rw [pieces, Text.splitOn_append_cons, List.filter_append]
  rfl

/-- Below a path that ends with a slash no further slash is put. -/
theorem join_cases (hdir : dir ≠ []) (ht : IsName t) :
    join dir t = dir ++ '/' :: t ∨
      ∃ front, dir = front ++ ['/'] ∧ join dir t = front ++ '/' :: t := by
  have hempty : dir.isEmpty = false := by simpa using hdir
  rw [join, ht.relative, hempty]
  simp only [Bool.false_eq_true, if_false, Bool.false_or]
  split
  · rename_i hlast
    obtain ⟨front, rfl⟩ : ∃ front, dir = front ++ ['/'] := by
      refine ⟨dir.dropLast, ?_⟩
      exact (List.dropLast_append_getLast? '/' (by simpa using hlast)).symm
    exact Or.inr ⟨front, rfl, by simp⟩
  · exact Or.inl (by simp)

theorem pieces_join (hdir : dir ≠ []) (ht : IsName t) :
    pieces (join dir t) = pieces dir ++ [t] := by
  rcases join_cases hdir ht with hjoin | ⟨front, rfl, hjoin⟩
  · rw [hjoin, pieces_append_slash, ht.pieces]
  · rw [hjoin, pieces_append_slash, ht.pieces, pieces_append_slash]
    simp [pieces, Text.splitOn]

theorem isAbsolute_join (hdir : dir ≠ []) (ht : IsName t) :
    isAbsolute (join dir t) = isAbsolute dir := by
  rcases join_cases hdir ht with hjoin | ⟨front, rfl, hjoin⟩
  · obtain ⟨c, dir, rfl⟩ := List.exists_cons_of_ne_nil hdir
    rw [hjoin]
    rfl
  · rw [hjoin]
    cases front <;> rfl

theorem join_ne_nil (hdir : dir ≠ []) (ht : IsName t) : join dir t ≠ [] := by
  rcases join_cases hdir ht with hjoin | ⟨front, rfl, hjoin⟩ <;> simp [hjoin]

theorem wanted_join (hdir : dir ≠ []) (ht : IsName t) :
    FileTree.wanted (join dir t) = pieces dir ++ [t] := by
  have hlast : (join dir t).getLast? ≠ some '/' := by
    obtain ⟨front, hfront⟩ : ∃ front, join dir t = front ++ t := by
      rcases join_cases hdir ht with hjoin | ⟨front, rfl, hjoin⟩
      · exact ⟨dir ++ ['/'], by simp [hjoin]⟩
      · exact ⟨front ++ ['/'], by simp [hjoin]⟩
    rw [hfront, List.getLast?_append_of_ne_nil _ ht.ne_nil]
    exact fun h => ht.slash (List.mem_of_getLast? h)
  rw [FileTree.wanted, if_neg (by simpa using hlast), pieces_join hdir ht]

/-- The component that a name other than a dot stands for. -/
def component (t : Text) : Component := if t == ".." then .parent else .name t

theorem component_injective : Function.Injective component := by
  intro t u h
  unfold component at h
  split at h <;> split at h <;> simp_all

theorem inner_eq (ts : List Text) : inner ts = (withoutDots ts).map component := by
  induction ts with
  | nil => rfl
  | cons t ts ih =>
    rw [inner, withoutDots, List.filter_cons]
    cases hdot : t == (".".toList : Text) with
    | true => exact ih
    | false =>
      simp only [Bool.not_false, Bool.false_eq_true, if_false, if_true, List.map_cons, component,
        ih]
      split <;> rfl

theorem inner_append (ts us : List Text) : inner (ts ++ us) = inner ts ++ inner us := by
  simp only [inner_eq, withoutDots, List.filter_append, List.map_append]

theorem IsName.inner (ht : IsName t) : inner [t] = [.name t] := by
  have hdot : (t == (".".toList : Text)) = false := by simpa using ht.ne_dot
  have hdots : (t == ("..".toList : Text)) = false := by simpa using ht.ne_dots
  simp only [Path.inner, hdot, hdots, Bool.false_eq_true, if_false]

theorem components_join (hdir : dir ≠ []) (ht : IsName t) :
    components (join dir t) = components dir ++ [.name t] := by
  have hdot : (t == (".".toList : Text)) = false := by simpa using ht.ne_dot
  rw [components, components, isAbsolute_join hdir ht, pieces_join hdir ht]
  split
  · rw [inner_append, ht.inner, List.cons_append]
  · cases pieces dir with
    | nil =>
      simp only [List.nil_append, hdot, Bool.false_eq_true, if_false]
      exact ht.inner
    | cons u us =>
      simp only [List.cons_append]
      split
      · rw [inner_append, ht.inner, List.cons_append]
      · rw [← List.cons_append, inner_append, ht.inner]

theorem IsName.fileName (ht : IsName t) : fileName t = some t := by
  have hdot : (t == (".".toList : Text)) = false := by simpa using ht.ne_dot
  rw [Path.fileName, components, ht.relative, ht.pieces]
  simp only [Bool.false_eq_true, if_false, hdot, ht.inner]
  rfl

theorem fileName_join (hdir : dir ≠ []) (ht : IsName t) : fileName (join dir t) = some t := by
  rw [fileName, components_join hdir ht, List.getLast?_concat]

theorem extension_join (hdir : dir ≠ []) (ht : IsName t) :
    extension (join dir t) = extension t := by
  rw [extension, extension, fileName_join hdir ht, ht.fileName]

/-- The components of a path but for the root and the dot at its front come from its pieces but for
the dots. -/
theorem filter_components (p : Text) :
    (components p).filter (fun c => c != .root && c != .current) =
      (withoutDots (pieces p)).map component := by
  have hinner : ∀ ts, (inner ts).filter (fun c => c != .root && c != .current) = inner ts := by
    intro ts
    refine List.filter_eq_self.mpr fun c hc => ?_
    rw [inner_eq] at hc
    obtain ⟨t, -, rfl⟩ := List.mem_map.mp hc
    unfold component
    split <;> rfl
  rw [components, ← inner_eq]
  split
  · exact hinner (pieces p)
  · cases pieces p with
    | nil => rfl
    | cons t ts =>
      cases hdot : t == (".".toList : Text) with
      | true =>
        simp only [hdot, if_true, inner]
        exact hinner ts
      | false =>
        simp only [hdot, Bool.false_eq_true, if_false]
        exact hinner (t :: ts)

theorem mem_components_root : .root ∈ components p ↔ isAbsolute p = true := by
  have hinner : ∀ ts, .root ∉ inner ts := by
    intro ts hroot
    rw [inner_eq] at hroot
    obtain ⟨t, -, ht⟩ := List.mem_map.mp hroot
    unfold component at ht
    split at ht <;> cases ht
  unfold components
  split
  · rename_i habsolute
    exact iff_of_true List.mem_cons_self habsolute
  · rename_i hrelative
    refine iff_of_false (fun hroot => ?_) hrelative
    split at hroot
    · cases hroot
    · split at hroot
      · rcases List.mem_cons.mp hroot with hroot | hroot
        · cases hroot
        · exact hinner _ hroot
      · exact hinner _ hroot

/-- Two spellings of one path have the same pieces but for dots, and start alike. -/
theorem withoutDots_of_same (h : components p = components q) :
    withoutDots (pieces p) = withoutDots (pieces q) ∧ isAbsolute p = isAbsolute q := by
  refine ⟨component_injective.list_map (by rw [← filter_components, h, filter_components]), ?_⟩
  rw [Bool.eq_iff_iff, ← mem_components_root, h, mem_components_root]

end Path

namespace FileTree

variable {fs : FileTree} {dir r r' : RealPath} {p q : Text} {j k : Nat}

/-- A path leads to a directory by its pieces, be there a slash at its end or not. -/
theorem leads_wanted_iff (hr : fs.entry? r = some .directory) :
    Leads fs true dir (wanted p) k r ↔ Leads fs true dir (Path.pieces p) k r := by
  unfold wanted
  split
  · constructor
    · intro h
      obtain ⟨i, j, mid, rfl, hfirst, hdot⟩ := h.exists_mid (List.cons_ne_nil _ _)
      cases hdot with
      | dot _ hend =>
        cases hend
        exact hfirst
      | missing _ ht => exact absurd rfl ht.ne_dot
      | into _ ht => exact absurd rfl ht.ne_dot
      | stay _ ht => exact absurd rfl ht.ne_dot
      | link _ ht => exact absurd rfl ht.ne_dot
    · exact fun h => h.append (.dot hr (.here r)) (List.cons_ne_nil _ _)
  · rfl

theorem origin_join {t : Text} (hp : p ≠ []) (ht : Path.IsName t) :
    origin dir (Path.join p t) = origin dir p := by
  unfold origin
  rw [Path.isAbsolute_join hp ht]

theorem Leads.eq_of_same (hsame : Path.components p = Path.components q)
    (h : Leads fs true (origin dir p) (Path.pieces p) j r)
    (h' : Leads fs true (origin dir q) (Path.pieces q) k r') : r = r' := by
  obtain ⟨hpieces, hstart⟩ := Path.withoutDots_of_same hsame
  have horigin : origin dir p = origin dir q := by
    unfold origin
    rw [hstart]
  have h := h.dropDots (dropsDots_withoutDots _)
  rw [hpieces, horigin] at h
  exact (h.unique (h'.dropDots (dropsDots_withoutDots _))).2

/-- A path stands for what it leads to from where it starts; a link at its end is not followed. -/
def StandsFor (fs : FileTree) (p : Text) (r : RealPath) : Prop :=
  p ≠ [] ∧ ∃ k, Leads fs false (origin fs.here p) (wanted p) k r

theorem StandsFor.unique (h : fs.StandsFor p r) (h' : fs.StandsFor p r') : r = r' := by
  obtain ⟨-, j, hleads⟩ := h
  obtain ⟨-, k, hleads'⟩ := h'
  exact (hleads.unique hleads').2

/-- What a path stands for is where it is looked up, if the system takes that on. -/
theorem locate_eq_ok_iff_leads {follow : Bool} :
    fs.locate follow p = .ok r ↔ p ≠ [] ∧ Text.byteLength p ≤ fs.limits.path ∧
      ∃ k ≤ fs.limits.links, Leads fs follow (origin fs.here p) (wanted p) k r := by
  rw [locate, ← locateFrom_eq_ok_iff]
  split
  · rename_i hempty
    simp only [List.isEmpty_iff] at hempty
    simp [hempty]
  · rename_i hne
    simp only [List.isEmpty_iff] at hne
    split
    · rename_i hlong
      simp [Nat.not_le.mpr hlong]
    · rename_i hshort
      simp [hne, Nat.not_lt.mp hshort]

/-- A path finds what it leads to, if the system takes on its length and its links. -/
theorem find_eq_ok_iff_leads {e : Entry} :
    fs.find p = .ok (r, e) ↔ p ≠ [] ∧ Text.byteLength p ≤ fs.limits.path ∧
      (∃ k ≤ fs.limits.links, Leads fs true (origin fs.here p) (wanted p) k r) ∧
      fs.entry? r = some e := by
  rw [find_eq_ok_iff, locate_eq_ok_iff_leads, and_assoc, and_assoc]

theorem ne_nil_of_find {e : Entry} (h : fs.find p = .ok (r, e)) : p ≠ [] :=
  (find_eq_ok_iff_leads.mp h).1

/-- A path below a directory finds what the name leads to from there, if the system takes on one
more name and the links that come with it. -/
theorem find_join_iff {e : Entry} {t : Text} (ht : Path.IsName t)
    (hp : fs.find p = .ok (dir, .directory))
    (hleads : Leads fs true (origin fs.here p) (Path.pieces p) k dir) :
    fs.find (Path.join p t) = .ok (r, e) ↔
      Text.byteLength (Path.join p t) ≤ fs.limits.path ∧
      ∃ j, k + j ≤ fs.limits.links ∧ Leads fs true dir [t] j r ∧ fs.entry? r = some e := by
  have hne := ne_nil_of_find hp
  rw [find_eq_ok_iff_leads, Path.wanted_join hne ht, origin_join hne ht]
  constructor
  · rintro ⟨-, hshort, ⟨n, hn, hall⟩, he⟩
    obtain ⟨i, j, mid, rfl, hfirst, hsecond⟩ := hall.exists_mid (List.cons_ne_nil _ _)
    obtain ⟨rfl, rfl⟩ := hleads.unique hfirst
    exact ⟨hshort, j, hn, hsecond, he⟩
  · rintro ⟨hshort, j, hj, hsecond, he⟩
    exact ⟨Path.join_ne_nil hne ht, hshort,
      ⟨k + j, hj, hleads.append hsecond (List.cons_ne_nil _ _)⟩, he⟩

/-- A path below a directory stands for what the directory has under the name. -/
theorem WellNamed.standsFor_join {t : Text} (hnames : fs.WellNamed) (ht : t ∈ fs.namesIn dir)
    (hp : fs.find p = .ok (dir, .directory)) : fs.StandsFor (Path.join p t) (dir ++ [t]) := by
  obtain ⟨hne, -, ⟨k, -, hleads⟩, hdir⟩ := find_eq_ok_iff_leads.mp hp
  have hname := (hnames.isEntryName ht).toIsName
  have hall := ((leads_wanted_iff hdir).mp hleads).append (hnames.leads_entry hdir ht)
    (List.cons_ne_nil _ _)
  refine ⟨Path.join_ne_nil hne hname, k + 0, ?_⟩
  rwa [origin_join hne hname, Path.wanted_join hne hname]

end FileTree

end DocCoverage
