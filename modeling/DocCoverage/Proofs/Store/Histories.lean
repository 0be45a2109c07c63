import DocCoverage.Proofs.Store.Persistence

/-!
# Histories of a hash store

A store is updated, saved to its file and loaded from it, in any order. What it remembers of a path
is then the last update of the path that is in effect: a load goes back to the updates that were in
effect at the last save, and before the first save to none. Histories list their steps with the
latest first.
-/
namespace DocCoverage

/-- Whether a file can be written does not depend on what is written. -/
theorem FileTree.write_error_congr {fs : FileTree} {p : Text} {content : Bytes} {e : FileError}
    (h : fs.write p content = .error e) (content' : Bytes) : fs.write p content' = .error e := by
  unfold write at h ⊢
  split at h
  · exact h
  · split at h
    · exact h
    · cases h

namespace HashStore

inductive Step where
  | update (path : Text) (entry : HashEntry)
  | save
  | load
  deriving DecidableEq, Repr

mutual

/-- The updates in effect after a history, the latest first. -/
def inEffect : List Step → List (Text × HashEntry)
  | [] => []
  | .update path e :: before => (path, e) :: inEffect before
  | .save :: before => inEffect before
  | .load :: before => savedUpdates before

/-- The updates that were in effect at the last save of a history. -/
def savedUpdates : List Step → List (Text × HashEntry)
  | [] => []
  | .update _ _ :: before => savedUpdates before
  | .save :: before => inEffect before
  | .load :: before => savedUpdates before

end

/-- A store in memory and the files that hold its file. -/
structure Kept where
  store : HashStore
  files : FileTree

/-- Take one step with the store that is kept in a file. -/
def Kept.step (file : Text) (k : Kept) : Step → Except StoreError Kept
  | .update path e => .ok { k with store := k.store.update path e }
  | .save =>
    match k.store.save k.files file with
    | .error e => .error e
    | .ok files => .ok { k with files := files }
  | .load =>
    match HashStore.load k.files file with
    | .error e => .error e
    | .ok store => .ok { k with store := store }

/-- Take the steps of a history, beginning with an empty store. The first error ends it. -/
def after (fs : FileTree) (file : Text) : List Step → Except StoreError Kept
  | [] => .ok ⟨empty, fs⟩
  | step :: before =>
    match after fs file before with
    | .error e => .error e
    | .ok k => k.step file step

/-- The store holds the last of the updates of each path. -/
structure Holds (updates : List (Text × HashEntry)) (s : HashStore) : Prop where
  increasing : Text.Increasing s.entries
  get?_eq : ∀ path, s.get? path = updates.lookup path

theorem holds_empty : Holds [] empty := ⟨List.Pairwise.nil, fun _ => rfl⟩

theorem Holds.update {updates : List (Text × HashEntry)} {s : HashStore} (h : s.Holds updates)
    (path : Text) (e : HashEntry) : Holds ((path, e) :: updates) (s.update path e) where
  increasing := h.increasing.bind path e
  get?_eq p := by
    rw [get?_update, h.get?_eq p, List.lookup_cons]
    by_cases hp : p = path
    · simp [hp]
    · have hne : (p == path) = false := by simpa using hp
      rw [if_neg hp, hne]

theorem Holds.isCurrent_iff {updates : List (Text × HashEntry)} {s : HashStore}
    (h : s.Holds updates) (path hash : Text) (level : Level) :
    s.isCurrent path hash level = true ↔
      ∃ e, updates.lookup path = some e ∧ e.hash = hash ∧ e.reached level = true := by
  rw [isCurrent, h.get?_eq path]
  cases updates.lookup path <;> simp

variable {fs : FileTree} {file : Text} {history : List Step} {k k' : Kept}

/-- What holds after every history: the store and the store in its file hold the updates that they
should, and the file can be written if that was so in the beginning. -/
structure Kept.Follows (fs : FileTree) (file : Text) (history : List Step) (k : Kept) : Prop where
  store : k.store.Holds (inEffect history)
  saved : ∃ s, HashStore.load k.files file = .ok s ∧ s.Holds (savedUpdates history)
  writable : k.files = fs ∨ ∃ content, k.files.entryAt? file = some (.file content)

theorem follows_start (habsent : fs.exists file = false) :
    Kept.Follows fs file [] ⟨empty, fs⟩ where
  store := holds_empty
  saved := ⟨empty, by rw [load, habsent]; rfl, holds_empty⟩
  writable := Or.inl rfl

theorem load_of_save {files : FileTree} {s : HashStore} (hs : Text.Increasing s.entries)
    (h : s.save fs file = .ok files) : load files file = .ok s :=
  load_of_render hs (FileTree.entryAt?_write_self (save_eq_ok h))

/-- A store that cannot be saved to its file could not have been saved there in the beginning. -/
theorem Kept.Follows.save_error (h : k.Follows fs file history) {e : StoreError}
    (he : k.store.save k.files file = .error e) :
    ∃ err, ∀ s : HashStore, s.save fs file = .error (.unwritable file err) := by
  unfold HashStore.save at he
  split at he
  · rename_i err hwrite
    refine ⟨err, fun s => ?_⟩
    rcases h.writable with hsame | ⟨old, hfile⟩
    · rw [hsame] at hwrite
      have hall := FileTree.write_error_congr hwrite (Utf8.encode s.render)
      simp only [HashStore.save, FileTree.writeText, hall]
    · obtain ⟨files, hok⟩ := FileTree.exists_write hfile (Utf8.encode k.store.render)
      rw [FileTree.writeText, hok] at hwrite
      cases hwrite
  · cases he

/-- One step keeps what holds after a history, unless it saves and the file cannot be written. -/
theorem Kept.Follows.step (h : k.Follows fs file history) (step : Step) :
    (∃ k', k.step file step = .ok k' ∧ k'.Follows fs file (step :: history)) ∨
      step = .save ∧ ∃ err, ∀ s : HashStore, s.save fs file = .error (.unwritable file err) := by
  cases step with
  | update path e =>
    refine Or.inl ⟨_, rfl, ?_, ?_, h.writable⟩
    · rw [inEffect]
      exact h.store.update path e
    · rw [savedUpdates]
      exact h.saved
  | save =>
    cases hsave : k.store.save k.files file with
    | error e => exact Or.inr ⟨rfl, h.save_error hsave⟩
    | ok files =>
      refine Or.inl ⟨{ k with files := files }, by simp only [Kept.step, hsave], ?_, ?_, ?_⟩
      · rw [inEffect]
        exact h.store
      · rw [savedUpdates]
        exact ⟨k.store, load_of_save h.store.increasing hsave, h.store⟩
      · exact Or.inr ⟨_, FileTree.entryAt?_write_self (save_eq_ok hsave)⟩
  | load =>
    obtain ⟨s, hload, hs⟩ := h.saved
    refine Or.inl ⟨{ k with store := s }, by simp only [Kept.step, hload], ?_, ?_, h.writable⟩
    · rw [inEffect]
      exact hs
    · rw [savedUpdates]
      exact ⟨s, hload, hs⟩

/-- A history either goes through, or it has a save and the file cannot be written at all. -/
theorem exists_follows (habsent : fs.exists file = false) (history : List Step) :
    (∃ k, after fs file history = .ok k ∧ k.Follows fs file history) ∨
      .save ∈ history ∧
        ∃ err, ∀ s : HashStore, s.save fs file = .error (.unwritable file err) := by
  induction history with
  | nil => exact Or.inl ⟨_, rfl, follows_start habsent⟩
  | cons step before ih =>
    rcases ih with ⟨k, hk, hfollows⟩ | ⟨hmem, hfail⟩
    · rcases hfollows.step step with ⟨k', hk', hfollows'⟩ | ⟨rfl, hfail⟩
      · exact Or.inl ⟨k', by simp only [after, hk, hk'], hfollows'⟩
      · exact Or.inr ⟨List.mem_cons_self, hfail⟩
    · exact Or.inr ⟨List.mem_cons_of_mem step hmem, hfail⟩

/-- After every history of a hash file that was not there at first, content is current exactly if
the last update of its path that is in effect stored its digest and reached the level, and a store
that is saved then is loaded again as it was. A history breaks off only at a save into a file that
cannot be written at all. -/
theorem isCurrent_after (habsent : fs.exists file = false) (history : List Step) :
    (∃ k, after fs file history = .ok k ∧
      (∀ path hash level, k.store.isCurrent path hash level = true ↔
        ∃ e, (inEffect history).lookup path = some e ∧ e.hash = hash ∧
          e.reached level = true) ∧
      ∀ k', k.step file .save = .ok k' → HashStore.load k'.files file = .ok k.store) ∨
    .save ∈ history ∧ ∃ err, ∀ s : HashStore, s.save fs file = .error (.unwritable file err) := by
  refine (exists_follows habsent history).imp_left fun ⟨k, hk, hfollows⟩ => ⟨k, hk, ?_, ?_⟩
  · exact hfollows.store.isCurrent_iff
  · intro k' hstep
    simp only [Kept.step] at hstep
    split at hstep
    · cases hstep
    · rename_i files hsave
      obtain rfl := Except.ok.inj hstep
      exact load_of_save hfollows.store.increasing hsave

/-- A path that has to be escaped wherever it can be. -/
def oddPath : Text := "a\"\\\n\x01é.py"

/-- An entry with such a digest, for content with its comments but without the right docstrings. -/
def oddEntry : HashEntry := ⟨"\"\\\x1f", true, true, false, false⟩

/-- The entry is saved, replaced by another one and loaded again; latest first. -/
def oddHistory : List Step :=
  [.load, .update oddPath ⟨"new", true, true, true, true⟩, .save, .update oddPath oddEntry]

/-- The load brings the saved entry back. -/
theorem isCurrent_after_odd : FileTree.empty.exists "h.json" = false ∧
    ∃ k, after .empty "h.json" oddHistory = .ok k ∧
      k.store.isCurrent oddPath oddEntry.hash .multilineComments = true ∧
      k.store.isCurrent oddPath oddEntry.hash .formattedMultiline = false ∧
      k.store.isCurrent oddPath "new" .basicComments = false ∧
      ∀ k', k.step "h.json" .save = .ok k' → HashStore.load k'.files "h.json" = .ok k.store := by
  have habsent : FileTree.empty.exists "h.json" = false := by decide
  have hlast : (inEffect oddHistory).lookup oddPath = some oddEntry := by decide
  rcases isCurrent_after habsent oddHistory with ⟨k, hk, hcurrent, hsaved⟩ | ⟨-, err, hfail⟩
  · refine ⟨habsent, k, hk, (hcurrent _ _ _).mpr ⟨oddEntry, hlast, rfl, rfl⟩, ?_, ?_, hsaved⟩
    · refine Bool.eq_false_iff.mpr fun h => ?_
      obtain ⟨e, he, -, hreaches⟩ := (hcurrent _ _ _).mp h
      obtain rfl := Option.some.inj (hlast.symm.trans he)
      cases hreaches
    · refine Bool.eq_false_iff.mpr fun h => ?_
      obtain ⟨e, he, hhash, -⟩ := (hcurrent _ _ _).mp h
      obtain rfl := Option.some.inj (hlast.symm.trans he)
      exact absurd hhash (by decide)
  · -- an empty tree takes a file at its top
    have hok : (empty.save .empty "h.json").isOk = true := by decide
    rw [hfail] at hok
    cases hok

end HashStore

end DocCoverage
