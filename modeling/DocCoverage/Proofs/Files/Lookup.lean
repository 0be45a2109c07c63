import DocCoverage.Files.Tree
import DocCoverage.Proofs.Text.Split

/-!
# Following names and links

Looking up a path goes along its names, and where it meets a link the names of the target stand in
for it. `Leads` says where this ends and how many links it takes, be they as many as they may; a
look-up ends there as well unless it runs out of links. Ways pass through directories and links
alone, so that trees which have these in common have the same ways. A way along two lists of names
is a way along the first and from its end a way along the second.
-/
namespace DocCoverage

/-- A name that a directory is asked for: no dots, and not too long. -/
structure Path.IsProper (longest : Nat) (t : Text) : Prop where
  ne_dot : t ≠ "."
  ne_dots : t ≠ ".."
  short : Text.byteLength t ≤ longest

/-- One piece of a path, and no dots. -/
structure Path.IsName (t : Text) : Prop where
  ne_dot : t ≠ "."
  ne_dots : t ≠ ".."
  ne_nil : t ≠ []
  slash : '/' ∉ t

/-- The name of an entry. -/
structure Path.IsEntryName (longest : Nat) (t : Text) : Prop
    extends Path.IsName t, Path.IsProper longest t

/-- The pieces that are no dots. -/
def Path.withoutDots (ts : List Text) : List Text := ts.filter fun t => !(t == ".")

namespace FileTree

/-- From a directory the names lead over a number of links to a real path. A link at the end counts
only if it is followed. -/
inductive Leads (fs : FileTree) (follow : Bool) : RealPath → List Text → Nat → RealPath → Prop
  | here (dir) : Leads fs follow dir [] 0 dir
  | dot {dir ts k r} : fs.entry? dir = some .directory → Leads fs follow dir ts k r →
      Leads fs follow dir ("." :: ts) k r
  | up {dir ts k r} : fs.entry? dir = some .directory →
      fs.entry? dir.dropLast = some .directory → Leads fs follow dir.dropLast ts k r →
      Leads fs follow dir (".." :: ts) k r
  | missing {dir t} : fs.entry? dir = some .directory → Path.IsProper fs.limits.name t →
      fs.entry? (dir ++ [t]) = none → Leads fs follow dir [t] 0 (dir ++ [t])
  | into {dir t ts k r e} : fs.entry? dir = some .directory → Path.IsProper fs.limits.name t →
      fs.entry? (dir ++ [t]) = some e → (∀ target, e ≠ .link target) →
      Leads fs follow (dir ++ [t]) ts k r → Leads fs follow dir (t :: ts) k r
  | stay {dir t target} : fs.entry? dir = some .directory → Path.IsProper fs.limits.name t →
      fs.entry? (dir ++ [t]) = some (.link target) → follow = false →
      Leads fs follow dir [t] 0 (dir ++ [t])
  | link {dir t ts k r target} : fs.entry? dir = some .directory → Path.IsProper fs.limits.name t →
      fs.entry? (dir ++ [t]) = some (.link target) → (ts = [] → follow = true) → target ≠ [] →
      Leads fs follow (origin dir target) (wanted target ++ ts) k r →
      Leads fs follow dir (t :: ts) (k + 1) r

/-- The second list is the first without some of its dots. -/
inductive DropsDots : List Text → List Text → Prop
  | nil : DropsDots [] []
  | keep (t) {ts us} : DropsDots ts us → DropsDots (t :: ts) (t :: us)
  | drop {ts us} : DropsDots ts us → DropsDots ("." :: ts) us

variable {fs fs' : FileTree} {follow : Bool} {dir mid r r' : RealPath} {t target : Text}
  {ts us : List Text} {i j k n : Nat}

section

variable {onLink : RealPath → Text → List Text → Except FileError RealPath}

theorem directory_of_descend (h : descend fs follow onLink dir (t :: ts) = .ok r) :
    fs.entry? dir = some .directory := by
  rw [descend] at h
  split at h
  · assumption
  · cases h

theorem descend_dot (hdir : fs.entry? dir = some .directory) (ts : List Text) :
    descend fs follow onLink dir ("." :: ts) = descend fs follow onLink dir ts := by
  rw [descend, hdir]
  rfl

theorem descend_up (hdir : fs.entry? dir = some .directory) (ts : List Text) :
    descend fs follow onLink dir (".." :: ts) =
      match fs.entry? dir.dropLast with
      | some .directory => descend fs follow onLink dir.dropLast ts
      | _ => .error .notDirectory := by
  rw [descend, hdir]
  rfl

theorem descend_proper (hdir : fs.entry? dir = some .directory)
    (ht : Path.IsProper fs.limits.name t) (ts : List Text) :
    descend fs follow onLink dir (t :: ts) =
      match fs.entry? (dir ++ [t]) with
      | none => if ts.isEmpty then .ok (dir ++ [t]) else .error .notFound
      | some (.link target) =>
        if ts.isEmpty && !follow then .ok (dir ++ [t]) else onLink dir target ts
      | some _ => descend fs follow onLink (dir ++ [t]) ts := by
  have hdot : (t == (".".toList : Text)) = false := by simpa using ht.ne_dot
  have hdots : (t == ("..".toList : Text)) = false := by simpa using ht.ne_dots
  rw [descend, hdir]
  cases fs.entry? (dir ++ [t]) with
  | none => simp only [hdot, hdots, Bool.false_eq_true, if_false, Nat.not_lt.mpr ht.short]
  | some e =>
    cases e <;> simp only [hdot, hdots, Bool.false_eq_true, if_false, Nat.not_lt.mpr ht.short]

theorem proper_of_descend (h : descend fs follow onLink dir (t :: ts) = .ok r) (hdot : t ≠ ".")
    (hdots : t ≠ "..") : Path.IsProper fs.limits.name t := by
  refine ⟨hdot, hdots, ?_⟩
  have hdot' : (t == (".".toList : Text)) = false := by simpa using hdot
  have hdots' : (t == ("..".toList : Text)) = false := by simpa using hdots
  rw [descend, directory_of_descend h] at h
  simp only [hdot', hdots', Bool.false_eq_true, if_false] at h
  split at h
  · cases h
  · omega

/-- Where going along names ends there is a way, if there is one behind every link. -/
theorem leads_of_descend
    (hlink : ∀ dir target ts, onLink dir target ts = .ok r → target ≠ [] ∧
      ∃ k < n, Leads fs follow (origin dir target) (wanted target ++ ts) k r)
    (h : descend fs follow onLink dir ts = .ok r) : ∃ k ≤ n, Leads fs follow dir ts k r := by
  induction ts generalizing dir with
  | nil =>
    obtain rfl := Except.ok.inj h
    exact ⟨0, Nat.zero_le n, .here dir⟩
  | cons t ts ih =>
    have hdir := directory_of_descend h
    by_cases hdot : t = "."
    · subst hdot
      rw [descend_dot hdir] at h
      obtain ⟨k, hk, hleads⟩ := ih h
      exact ⟨k, hk, .dot hdir hleads⟩
    by_cases hdots : t = ".."
    · subst hdots
      rw [descend_up hdir] at h
      split at h
      · rename_i habove
        obtain ⟨k, hk, hleads⟩ := ih h
        exact ⟨k, hk, .up hdir habove hleads⟩
      · cases h
    have ht := proper_of_descend h hdot hdots
    rw [descend_proper hdir ht] at h
    split at h
    · rename_i hnone
      split at h
      · rename_i hend
        obtain rfl := List.isEmpty_iff.mp hend
        obtain rfl := Except.ok.inj h
        exact ⟨0, Nat.zero_le n, .missing hdir ht hnone⟩
      · cases h
    · rename_i target htarget
      split at h
      · rename_i hend
        simp only [Bool.and_eq_true, List.isEmpty_iff, Bool.not_eq_true'] at hend
        obtain ⟨rfl, hfollow⟩ := hend
        obtain rfl := Except.ok.inj h
        exact ⟨0, Nat.zero_le n, .stay hdir ht htarget hfollow⟩
      · rename_i hfollow
        obtain ⟨hne, k, hk, hleads⟩ := hlink _ _ _ h
        refine ⟨k + 1, hk, .link hdir ht htarget (fun hnil => ?_) hne hleads⟩
        subst hnil
        simpa using hfollow
    · rename_i e hnot he
      obtain ⟨k, hk, hleads⟩ := ih h
      exact ⟨k, hk, .into hdir ht he hnot hleads⟩

end

/-- What is done with a link while some number of links may still be followed. -/
def followLink (fs : FileTree) (follow : Bool) :
    (links : Nat) → RealPath → Text → List Text → Except FileError RealPath
  | 0, _, _, _ => .error .tooManyLinks
  | n + 1, dir, target, ts =>
    if target.isEmpty then .error .notFound
    else locateFrom fs follow n (origin dir target) (wanted target ++ ts)

theorem locateFrom_eq_descend (n : Nat) (dir : RealPath) (ts : List Text) :
    locateFrom fs follow n dir ts = descend fs follow (followLink fs follow n) dir ts := by
  cases n <;> rfl

theorem leads_of_locateFrom (h : locateFrom fs follow n dir ts = .ok r) :
    ∃ k ≤ n, Leads fs follow dir ts k r := by
  induction n generalizing dir ts with
  | zero =>
    rw [locateFrom] at h
    exact leads_of_descend (fun _ _ _ hlink => by cases hlink) h
  | succ n ih =>
    refine leads_of_descend (fun dir target ts hlink => ?_) h
    split at hlink
    · cases hlink
    · rename_i htarget
      obtain ⟨k, hk, hleads⟩ := ih hlink
      exact ⟨by simpa using htarget, k, Nat.lt_succ_of_le hk, hleads⟩

theorem Leads.locateFrom (h : Leads fs follow dir ts k r) (hk : k ≤ n) :
    locateFrom fs follow n dir ts = .ok r := by
  induction h generalizing n with
  | here dir => rw [locateFrom_eq_descend, descend]
  | dot hdir _ ih => rw [locateFrom_eq_descend, descend_dot hdir, ← locateFrom_eq_descend, ih hk]
  | up hdir habove _ ih =>
    rw [locateFrom_eq_descend, descend_up hdir, habove, ← ih hk, locateFrom_eq_descend]
  | missing hdir ht hnone => rw [locateFrom_eq_descend, descend_proper hdir ht, hnone]; rfl
  | @into dir t ts k r e hdir ht he hnot _ ih =>
    rw [locateFrom_eq_descend, descend_proper hdir ht, he, ← ih hk, locateFrom_eq_descend]
    cases e with
    | link target => exact absurd rfl (hnot target)
    | _ => rfl
  | stay hdir ht htarget hfollow =>
    rw [locateFrom_eq_descend, descend_proper hdir ht, htarget, hfollow]
    rfl
  | @link dir t ts k r target hdir ht htarget hend hne _ ih =>
    obtain ⟨m, rfl⟩ : ∃ m, n = m + 1 := ⟨n - 1, by omega⟩
    have hgo : (ts.isEmpty && !follow) = false := by
      cases ts with
      | nil => rw [hend rfl]; rfl
      | cons t ts => rfl
    have hgood : target.isEmpty = false := by simpa using hne
    rw [locateFrom_eq_descend, descend_proper hdir ht, htarget]
    simp only [hgo, Bool.false_eq_true, if_false, followLink, hgood]
    exact ih (by omega)

/-- A look-up finds what a way with no more links than allowed leads to. -/
theorem locateFrom_eq_ok_iff :
    locateFrom fs follow n dir ts = .ok r ↔ ∃ k ≤ n, Leads fs follow dir ts k r :=
  ⟨leads_of_locateFrom, fun ⟨_, hk, h⟩ => h.locateFrom hk⟩

/-- Names lead to one place, over as many links each time. -/
theorem Leads.unique (h : Leads fs follow dir ts j r) (h' : Leads fs follow dir ts k r') :
    j = k ∧ r = r' := by
  induction h generalizing k r' with
  | here dir =>
    cases h'
    exact ⟨rfl, rfl⟩
  | dot _ _ ih =>
    cases h' with
    | dot _ h' => exact ih h'
    | missing _ ht => exact absurd rfl ht.ne_dot
    | into _ ht => exact absurd rfl ht.ne_dot
    | stay _ ht => exact absurd rfl ht.ne_dot
    | link _ ht => exact absurd rfl ht.ne_dot
  | up _ _ _ ih =>
    cases h' with
    | up _ _ h' => exact ih h'
    | missing _ ht => exact absurd rfl ht.ne_dots
    | into _ ht => exact absurd rfl ht.ne_dots
    | stay _ ht => exact absurd rfl ht.ne_dots
    | link _ ht => exact absurd rfl ht.ne_dots
  | missing _ ht hnone => cases h' <;> grind [ht.ne_dot, ht.ne_dots]
  | into _ ht he hnot _ ih => cases h' <;> grind [ht.ne_dot, ht.ne_dots]
  | stay _ ht htarget hfollow => cases h' <;> grind [ht.ne_dot, ht.ne_dots]
  | link _ ht htarget hend _ _ ih => cases h' <;> grind [ht.ne_dot, ht.ne_dots]

theorem Leads.eq_of_locateFrom (h : Leads fs follow dir ts k r)
    (hlocate : fs.locateFrom follow n dir ts = .ok r') : k ≤ n ∧ r = r' := by
  obtain ⟨j, hj, hleads⟩ := leads_of_locateFrom hlocate
  obtain ⟨rfl, rfl⟩ := h.unique hleads
  exact ⟨hj, rfl⟩

/-- Names can only be asked for in a directory. -/
theorem Leads.directory (h : Leads fs follow dir ts k r) (hne : ts ≠ []) :
    fs.entry? dir = some .directory := by
  cases h with
  | here => exact absurd rfl hne
  | _ => assumption

/-- There is no link at a real path. -/
def NoLink (fs : FileTree) (r : RealPath) : Prop := ∀ target, fs.entry? r ≠ some (.link target)

theorem noLink_of_directory (h : fs.entry? r = some .directory) : fs.NoLink r := by
  intro target htarget
  rw [h] at htarget
  cases htarget

/-- Both trees have the same directories and links. -/
structure SameWays (fs fs' : FileTree) : Prop where
  limits : fs'.limits = fs.limits
  directory : ∀ r, fs'.entry? r = some .directory ↔ fs.entry? r = some .directory
  link : ∀ r target, fs'.entry? r = some (.link target) ↔ fs.entry? r = some (.link target)

theorem SameWays.symm (h : SameWays fs fs') : SameWays fs' fs where
  limits := h.limits.symm
  directory r := (h.directory r).symm
  link r target := (h.link r target).symm

/-- What is no link can be the end of a way in the other tree too, be there something or nothing. -/
theorem SameWays.leads_end (h : SameWays fs fs') (hdir : fs.entry? dir = some .directory)
    (ht : Path.IsProper fs.limits.name t) (hnot : fs.NoLink (dir ++ [t])) :
    Leads fs' follow dir [t] 0 (dir ++ [t]) := by
  have hdir' := (h.directory dir).mpr hdir
  rw [← h.limits] at ht
  cases he : fs'.entry? (dir ++ [t]) with
  | none => exact .missing hdir' ht he
  | some e =>
    refine .into hdir' ht he (fun target htarget => ?_) (.here _)
    exact hnot target ((h.link _ target).mp (htarget ▸ he))

/-- Ways pass through directories and links alone. -/
theorem SameWays.leads (h : SameWays fs fs') (hleads : Leads fs follow dir ts k r) :
    Leads fs' follow dir ts k r := by
  induction hleads with
  | here dir => exact .here dir
  | dot hdir _ ih => exact .dot ((h.directory _).mpr hdir) ih
  | up hdir habove _ ih => exact .up ((h.directory _).mpr hdir) ((h.directory _).mpr habove) ih
  | missing hdir ht hnone => exact h.leads_end hdir ht fun target => by simp [hnone]
  | @into dir t ts k r e hdir ht he hnot hrest ih =>
    by_cases hts : ts = []
    · subst hts
      cases hrest
      exact h.leads_end hdir ht fun target htarget =>
        hnot target (Option.some.inj (he.symm.trans htarget))
    · have hnext := hrest.directory hts
      exact .into ((h.directory _).mpr hdir) (h.limits ▸ ht) ((h.directory _).mpr hnext)
        (fun _ hlink => nomatch hlink) ih
  | stay hdir ht htarget hstay =>
    exact .stay ((h.directory _).mpr hdir) (h.limits ▸ ht) ((h.link _ _).mpr htarget) hstay
  | link hdir ht htarget hend hne _ ih =>
    exact .link ((h.directory _).mpr hdir) (h.limits ▸ ht) ((h.link _ _).mpr htarget) hend hne ih

theorem SameWays.locate_eq_ok_iff (h : SameWays fs fs') (hhere : fs'.here = fs.here) {p : Text} :
    fs'.locate follow p = .ok r ↔ fs.locate follow p = .ok r := by
  unfold locate
  rw [hhere, h.limits]
  split
  · rfl
  · split
    · rfl
    · rw [locateFrom_eq_ok_iff, locateFrom_eq_ok_iff]
      exact exists_congr fun k => and_congr_right fun _ => ⟨h.symm.leads, h.leads⟩

theorem wanted_ne_nil {p : Text} (hp : p ≠ []) : wanted p ≠ [] := by
  unfold wanted
  split
  · exact List.append_ne_nil_of_right_ne_nil _ (List.cons_ne_nil _ _)
  · rename_i hlast
    obtain ⟨piece, hmem, hpiece⟩ := Text.exists_last_piece hp (by simpa using hlast)
    exact List.ne_nil_of_mem (List.mem_filter.mpr ⟨hmem, by simpa using hpiece⟩)

/-- No way ends at a link if links at the end are followed too. -/
theorem Leads.noLink (h : Leads fs true dir ts k r) (hdir : ts = [] → fs.NoLink dir) :
    fs.NoLink r := by
  generalize hfollow : true = follow at h
  induction h with
  | here dir => exact hdir rfl
  | dot hhere _ ih => exact ih fun _ => noLink_of_directory hhere
  | up _ habove _ ih => exact ih fun _ => noLink_of_directory habove
  | missing _ _ hnone =>
    intro target htarget
    rw [hnone] at htarget
    cases htarget
  | into _ _ he hnot _ ih =>
    exact ih fun _ target htarget => hnot target (Option.some.inj (he.symm.trans htarget))
  | stay _ _ _ hstay =>
    rw [← hfollow] at hstay
    cases hstay
  | link _ _ _ _ hne _ ih =>
    exact ih fun hnil => absurd (List.append_eq_nil_iff.mp hnil).1 (wanted_ne_nil hne)

theorem noLink_of_locate {p : Text} (h : fs.locate true p = .ok r) : fs.NoLink r := by
  unfold locate at h
  split at h
  · cases h
  · rename_i hp
    split at h
    · cases h
    · obtain ⟨k, -, hleads⟩ := leads_of_locateFrom h
      exact hleads.noLink fun hnil => absurd hnil (wanted_ne_nil (by simpa using hp))

theorem Leads.mid_here (h : Leads fs follow dir us k r) :
    ∃ i j mid, i + j = k ∧ Leads fs true dir [] i mid ∧ Leads fs follow mid us j r :=
  ⟨0, k, dir, Nat.zero_add k, .here dir, h⟩

/-- A way along two lists of names comes by the end of the first. -/
theorem Leads.exists_mid (h : Leads fs follow dir (ts ++ us) k r) (hne : us ≠ []) :
    ∃ i j mid, i + j = k ∧ Leads fs true dir ts i mid ∧ Leads fs follow mid us j r := by
  generalize hall : ts ++ us = all at h
  induction h generalizing ts with
  | here dir => exact absurd (List.append_eq_nil_iff.mp hall).2 hne
  | dot hdir h ih =>
    cases ts with
    | nil =>
      cases hall
      exact Leads.mid_here (.dot hdir h)
    | cons t ts =>
      obtain ⟨rfl, hrest⟩ := List.cons.inj hall
      obtain ⟨i, j, mid, hsum, hfirst, hsecond⟩ := ih hrest
      exact ⟨i, j, mid, hsum, .dot hdir hfirst, hsecond⟩
  | up hdir habove h ih =>
    cases ts with
    | nil =>
      cases hall
      exact Leads.mid_here (.up hdir habove h)
    | cons t ts =>
      obtain ⟨rfl, hrest⟩ := List.cons.inj hall
      obtain ⟨i, j, mid, hsum, hfirst, hsecond⟩ := ih hrest
      exact ⟨i, j, mid, hsum, .up hdir habove hfirst, hsecond⟩
  | missing hdir ht hnone =>
    cases ts with
    | nil =>
      cases hall
      exact Leads.mid_here (.missing hdir ht hnone)
    | cons t ts => exact absurd (List.append_eq_nil_iff.mp (List.cons.inj hall).2).2 hne
  | into hdir ht he hnot h ih =>
    cases ts with
    | nil =>
      cases hall
      exact Leads.mid_here (.into hdir ht he hnot h)
    | cons t ts =>
      obtain ⟨rfl, hrest⟩ := List.cons.inj hall
      obtain ⟨i, j, mid, hsum, hfirst, hsecond⟩ := ih hrest
      exact ⟨i, j, mid, hsum, .into hdir ht he hnot hfirst, hsecond⟩
  | stay hdir ht htarget hfollow =>
    cases ts with
    | nil =>
      cases hall
      exact Leads.mid_here (.stay hdir ht htarget hfollow)
    | cons t ts => exact absurd (List.append_eq_nil_iff.mp (List.cons.inj hall).2).2 hne
  | @link dir u rest k r target hdir ht htarget hend hgood h ih =>
    cases ts with
    | nil =>
      cases hall
      exact Leads.mid_here (.link hdir ht htarget hend hgood h)
    | cons t ts =>
      obtain ⟨rfl, hrest⟩ := List.cons.inj hall
      have hnames : (wanted target ++ ts) ++ us = wanted target ++ rest := by
        rw [List.append_assoc]
        exact congrArg _ hrest
      obtain ⟨i, j, mid, hsum, hfirst, hsecond⟩ := ih hnames
      exact ⟨i + 1, j, mid, by omega,
        .link hdir ht htarget (fun _ => rfl) hgood hfirst, hsecond⟩

theorem Leads.append (h : Leads fs true dir ts i mid) (h' : Leads fs follow mid us j r)
    (hne : us ≠ []) : Leads fs follow dir (ts ++ us) (i + j) r := by
  have hmid := h'.directory hne
  generalize hfollow : true = all at h
  induction h with
  | here dir => exact (Nat.zero_add j).symm ▸ h'
  | dot hdir _ ih => exact .dot hdir (ih h' hmid)
  | up hdir habove _ ih => exact .up hdir habove (ih h' hmid)
  | missing hdir ht hnone =>
    rw [hnone] at hmid
    cases hmid
  | into hdir ht he hnot _ ih => exact .into hdir ht he hnot (ih h' hmid)
  | stay hdir ht htarget hstay =>
    rw [htarget] at hmid
    cases hmid
  | link hdir ht htarget hend hgood _ ih =>
    have hrest := ih h' hmid
    rw [List.append_assoc] at hrest
    rw [Nat.add_right_comm]
    exact .link hdir ht htarget (fun hnil => absurd (List.append_eq_nil_iff.mp hnil).2 hne) hgood
      hrest

theorem DropsDots.append (front : List Text) (h : DropsDots ts us) :
    DropsDots (front ++ ts) (front ++ us) := by
  induction front with
  | nil => exact h
  | cons t front ih => exact .keep t ih

theorem dropsDots_withoutDots (ts : List Text) : DropsDots ts (Path.withoutDots ts) := by
  induction ts with
  | nil => exact .nil
  | cons t ts ih =>
    rw [Path.withoutDots, List.filter_cons]
    split
    · exact .keep t ih
    · rename_i hdot
      obtain rfl : t = "." := by simpa using hdot
      exact .drop ih

/-- Dots lead nowhere else. -/
theorem Leads.dropDots (h : Leads fs true dir ts k r) (hdots : DropsDots ts us) :
    Leads fs true dir us k r := by
  generalize hfollow : true = all at h ⊢
  induction h generalizing us with
  | here dir =>
    cases hdots
    exact .here dir
  | dot hdir _ ih =>
    cases hdots with
    | keep _ hrest => exact .dot hdir (ih hrest)
    | drop hrest => exact ih hrest
  | up hdir habove _ ih =>
    cases hdots with
    | keep _ hrest => exact .up hdir habove (ih hrest)
  | missing hdir ht hnone =>
    cases hdots with
    | keep _ hrest =>
      cases hrest
      exact .missing hdir ht hnone
    | drop hrest => exact absurd rfl ht.ne_dot
  | into hdir ht he hnot _ ih =>
    cases hdots with
    | keep _ hrest => exact .into hdir ht he hnot (ih hrest)
    | drop hrest => exact absurd rfl ht.ne_dot
  | stay hdir ht htarget hstay =>
    rw [← hfollow] at hstay
    cases hstay
  | link hdir ht htarget hend hgood _ ih =>
    cases hdots with
    | keep _ hrest =>
      exact .link hdir ht htarget (fun _ => hfollow.symm) hgood (ih (hrest.append _))
    | drop hrest => exact absurd rfl ht.ne_dot

end FileTree

end DocCoverage
