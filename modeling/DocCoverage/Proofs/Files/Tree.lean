import DocCoverage.Proofs.Files.Lookup

/-!
# Writing a file changes nothing else

Every question that is asked of a path in a file tree hangs on the entry that its look-up ends at.
Writing puts a file where there was a file or nothing, and such a place cannot be passed through on
the way to another one. So after a write every path leads where it led before, the paths that lead
to the written place find the new content there, and all others find what they found before.
-/
namespace DocCoverage.FileTree

variable {fs fs' : FileTree} {p q : Text}

/-- The entry that a path leads to, if it leads to one. -/
def entryAt? (fs : FileTree) (p : Text) : Option Entry := (fs.find p).toOption.map (·.2)

theorem find_eq_ok_iff {r : RealPath} {e : Entry} :
    fs.find p = .ok (r, e) ↔ fs.locate true p = .ok r ∧ fs.entry? r = some e := by
  unfold find
  cases fs.locate true p with
  | error err => simp
  | ok s =>
    simp only [Except.ok.injEq]
    split
    · rename_i f hs
      simp only [Except.ok.injEq, Prod.mk.injEq]
      constructor
      · rintro ⟨rfl, rfl⟩
        exact ⟨rfl, hs⟩
      · rintro ⟨rfl, he⟩
        exact ⟨rfl, Option.some.inj (hs.symm.trans he)⟩
    · rename_i hs
      constructor
      · intro h
        cases h
      · rintro ⟨rfl, he⟩
        rw [hs] at he
        cases he

theorem entryAt?_eq_some_iff {e : Entry} :
    fs.entryAt? p = some e ↔ ∃ r, fs.locate true p = .ok r ∧ fs.entry? r = some e := by
  simp only [← find_eq_ok_iff]
  unfold entryAt?
  cases fs.find p with
  | error err => simp [Except.toOption]
  | ok found =>
    obtain ⟨r, f⟩ := found
    simp [Except.toOption]

theorem exists_eq_isSome : fs.exists p = (fs.entryAt? p).isSome := by
  unfold «exists» entryAt?
  cases fs.find p <;> rfl

theorem isFile_iff : fs.isFile p = true ↔ ∃ content, fs.entryAt? p = some (.file content) := by
  unfold isFile entryAt?
  cases fs.find p with
  | error err => simp [Except.toOption]
  | ok found =>
    obtain ⟨r, e⟩ := found
    cases e <;> simp [Except.toOption]

theorem isDirectory_iff : fs.isDirectory p = true ↔ fs.entryAt? p = some .directory := by
  unfold isDirectory entryAt?
  cases fs.find p with
  | error err => simp [Except.toOption]
  | ok found =>
    obtain ⟨r, e⟩ := found
    cases e <;> simp [Except.toOption]

theorem isDirectory_iff_find :
    fs.isDirectory p = true ↔ ∃ dir, fs.find p = .ok (dir, .directory) := by
  rw [isDirectory_iff, entryAt?_eq_some_iff]
  simp only [find_eq_ok_iff]

theorem read_eq_ok_iff {content : Bytes} :
    fs.read p = .ok content ↔ fs.entryAt? p = some (.file content) := by
  unfold read entryAt?
  cases fs.find p with
  | error err => simp [Except.toOption]
  | ok found =>
    obtain ⟨r, e⟩ := found
    cases e <;> simp [Except.toOption]

theorem readText_eq_ok_iff {t : Text} :
    fs.readText p = .ok t ↔
      ∃ content, fs.entryAt? p = some (.file content) ∧ Utf8.decode content = .ok t := by
  simp only [← read_eq_ok_iff]
  unfold readText
  cases fs.read p with
  | error err => simp
  | ok content => cases hdec : Utf8.decode content <;> simp [hdec]

theorem mem_entries_of_eq_some {r : RealPath} {e : Entry} (hr : r ≠ [])
    (h : fs.entry? r = some e) : (r, e) ∈ fs.entries := by
  unfold entry? at h
  rw [if_neg (by simpa using hr)] at h
  obtain ⟨front, back, hentries, -⟩ := List.lookup_eq_some_iff.mp h
  exact hentries ▸ List.mem_append_right front List.mem_cons_self

/-- A place for a file: nothing is there but, perhaps, a file. -/
def IsSpot (fs : FileTree) (r : RealPath) : Prop :=
  fs.entry? r = none ∨ ∃ content, fs.entry? r = some (.file content)

theorem IsSpot.ne_nil {r : RealPath} (h : fs.IsSpot r) : r ≠ [] := by
  rintro rfl
  rcases h with h | ⟨content, h⟩ <;> cases h

theorem lookup_map_set (r q : RealPath) (e : Entry) (es : List (RealPath × Entry)) :
    (es.map fun (q, f) => if q == r then (q, e) else (q, f)).lookup q =
      if q = r then (es.lookup q).map fun _ => e else es.lookup q := by
  induction es with
  | nil => simp
  | cons a es ih =>
    obtain ⟨s, f⟩ := a
    rw [List.map_cons]
    by_cases hq : q = s
    · subst hq
      by_cases hs : q = r <;> simp [hs]
    · have hqs : (q == s) = false := by simpa using hq
      by_cases hs : s = r
      · subst hs
        simp only [beq_self_eq_true, if_true, List.lookup_cons, hqs, ih]
      · have hsr : (s == r) = false := by simpa using hs
        simp only [hsr, Bool.false_eq_true, if_false, List.lookup_cons, hqs, ih]

theorem entry?_set (fs : FileTree) {r : RealPath} (hr : r ≠ []) (q : RealPath) (e : Entry) :
    entry? (fs.set r e) q = if q = r then some e else fs.entry? q := by
  by_cases hq : q = []
  · subst hq
    rw [if_neg (Ne.symm hr)]
    rfl
  · have hempty : q.isEmpty = false := by simpa using hq
    simp only [ entry?, hempty, Bool.false_eq_true, if_false, set]
    split
    · rename_i hsome
      rw [lookup_map_set]
      split
      · rename_i hqr
        subst hqr
        obtain ⟨f, hf⟩ := Option.isSome_iff_exists.mp hsome
        rw [hf]
        rfl
      · rfl
    · rename_i hnone
      rw [List.lookup_append]
      split
      · rename_i hqr
        subst hqr
        rw [Option.not_isSome_iff_eq_none.mp hnone]
        simp
      · rename_i hqr
        have hlast : [(r, e)].lookup q = none := by simp [hqr]
        rw [hlast, Option.or_none]

theorem IsSpot.sameWays {r : RealPath} (hr : fs.IsSpot r) (content : Bytes) :
    SameWays fs (fs.set r (.file content)) := by
  have hset := fun q => entry?_set fs hr.ne_nil q (.file content)
  refine ⟨limits_set _ _ _, fun q => ?_, fun q target => ?_⟩
  · rw [hset]
    split
    · rename_i hq
      rcases hr with hr | ⟨c, hr⟩ <;> simp [hq, hr]
    · rfl
  · rw [hset]
    split
    · rename_i hq
      rcases hr with hr | ⟨c, hr⟩ <;> simp [hq, hr]
    · rfl

/-- A write puts a file in a place for one. -/
theorem write_eq_ok {content : Bytes} (h : fs.write p content = .ok fs') :
    ∃ r, fs.locate true p = .ok r ∧ fs.IsSpot r ∧ fs' = fs.set r (.file content) := by
  unfold write at h
  split at h
  · split at h <;> cases h
  · rename_i r hr
    split at h
    · cases h
    · rename_i hnot
      refine ⟨r, hr, ?_, (Except.ok.inj h).symm⟩
      cases he : fs.entry? r with
      | none => exact Or.inl he
      | some e =>
        cases e with
        | file c => exact Or.inr ⟨c, he⟩
        | directory => exact absurd he hnot
        | link target => exact absurd he (noLink_of_locate hr target)

/-- After a write every path leads where it led. -/
theorem locate_write {content : Bytes} (h : fs.write p content = .ok fs') {follow : Bool}
    {r : RealPath} : fs'.locate follow q = .ok r ↔ fs.locate follow q = .ok r := by
  obtain ⟨s, -, hspot, rfl⟩ := write_eq_ok h
  exact (hspot.sameWays content).locate_eq_ok_iff (here_set _ _ _)

/-- Both paths lead to one place. -/
def Meets (fs : FileTree) (p q : Text) : Prop :=
  ∃ r, fs.locate true p = .ok r ∧ fs.locate true q = .ok r

theorem meets_write {content : Bytes} {s t : Text} (h : fs.write p content = .ok fs') :
    fs'.Meets s t ↔ fs.Meets s t := by
  simp only [Meets, locate_write h]

/-- The paths that lead to the written place find the content there. -/
theorem entryAt?_write_of_meets {content : Bytes} (h : fs.write p content = .ok fs')
    (hq : fs.Meets p q) : fs'.entryAt? q = some (.file content) := by
  obtain ⟨r, hp, hq⟩ := hq
  rw [entryAt?_eq_some_iff]
  refine ⟨r, (locate_write h).mpr hq, ?_⟩
  obtain ⟨s, hs, hspot, rfl⟩ := write_eq_ok h
  obtain rfl := Except.ok.inj (hs.symm.trans hp)
  rw [entry?_set _ hspot.ne_nil, if_pos rfl]

/-- All others find what they found before. -/
theorem entryAt?_write_of_not_meets {content : Bytes} (h : fs.write p content = .ok fs')
    (hq : ¬fs.Meets p q) : fs'.entryAt? q = fs.entryAt? q := by
  refine Option.ext fun e => ?_
  simp only [entryAt?_eq_some_iff, locate_write h]
  obtain ⟨s, hs, hspot, rfl⟩ := write_eq_ok h
  refine exists_congr fun r => and_congr_right fun hr => ?_
  rw [entry?_set _ hspot.ne_nil, if_neg]
  rintro rfl
  exact hq ⟨r, hs, hr⟩

theorem entryAt?_write_self {content : Bytes} (h : fs.write p content = .ok fs') :
    fs'.entryAt? p = some (.file content) := by
  obtain ⟨r, hr, -, -⟩ := write_eq_ok h
  exact entryAt?_write_of_meets h ⟨r, hr, hr⟩

theorem isDirectory_write {content : Bytes} (h : fs.write p content = .ok fs') (q : Text) :
    fs'.isDirectory q = fs.isDirectory q := by
  rw [Bool.eq_iff_iff, isDirectory_iff, isDirectory_iff, entryAt?_eq_some_iff,
    entryAt?_eq_some_iff]
  simp only [locate_write h]
  obtain ⟨s, -, hspot, rfl⟩ := write_eq_ok h
  simp only [(hspot.sameWays content).directory]

theorem exists_write {old : Bytes} (h : fs.entryAt? p = some (.file old)) (content : Bytes) :
    ∃ fs', fs.write p content = .ok fs' := by
  obtain ⟨r, hr, he⟩ := entryAt?_eq_some_iff.mp h
  exact ⟨fs.set r (.file content), by simp only [write, hr, he]⟩

end DocCoverage.FileTree
