import DocCoverage.HashStore
import DocCoverage.Proofs.Files.Tree
import DocCoverage.Proofs.Files.Utf8
import DocCoverage.Proofs.Json.Members
import DocCoverage.Proofs.Json.Rest
import DocCoverage.Proofs.Text.Maps

/-!
# A hash store survives its file

Every store that is loaded has strictly increasing paths, remembering keeps them so, and such a
store is read back from the text that it is written as. So loading a store from the file it was
saved to gives the store.
-/
namespace DocCoverage

namespace HashEntry

def Field.toJson : Field → Json
  | text t => .text t
  | flag b => .bool b

/-- The fields of an entry in the order in which they are written. -/
def fieldsOf (e : HashEntry) : List (Text × Field) :=
  [("hash", .text e.hash), ("basic_comments", .flag e.basicComments),
   ("multiline_comments", .flag e.multilineComments),
   ("formatted_multiline", .flag e.formattedMultiline), ("documented", .flag e.documented)]

theorem map_fieldsOf (e : HashEntry) : e.fieldsOf.map Prod.fst = shape.fields := rfl

theorem toJson_eq (e : HashEntry) :
    e.toJson = .object (e.fieldsOf.map fun m => (m.1, m.2.toJson)) := rfl

theorem shape_read_text (level : Nat) (t rest : Text) :
    shape.read "hash" (' ' :: (Json.render level (Field.text t).toJson ++ rest)) =
      .ok (.text t, rest) := by
  have hread : Json.readTextValue (' ' :: (Json.render level (Field.text t).toJson ++ rest)) =
      .ok (t, rest) := by
    rw [Field.toJson, Json.render]
    exact Json.readTextValue_quote t rest
  simp only [shape, beq_self_eq_true, if_true, hread]
  rfl

theorem shape_read_flag {name : Text} (hname : (name == "hash".toList) = false) (level : Nat)
    (b : Bool) (rest : Text) :
    shape.read name (' ' :: (Json.render level (Field.flag b).toJson ++ rest)) =
      .ok (.flag b, rest) := by
  have hread := Json.readBoolValue_render level b rest
  simp only [shape, hname, Bool.false_eq_true, if_false, Field.toJson, hread]
  rfl

theorem shape_read_fieldsOf (e : HashEntry) (level : Nat) :
    ∀ m ∈ e.fieldsOf, ∀ t, shape.read m.1 (' ' :: (Json.render level m.2.toJson ++ t)) =
      .ok (m.2, t) := by
  intro m hm t
  simp only [fieldsOf, List.mem_cons, List.not_mem_nil, or_false] at hm
  rcases hm with rfl | rfl | rfl | rfl | rfl
  · exact shape_read_text level e.hash t
  all_goals exact shape_read_flag rfl level _ t

theorem contains_fieldsOf (e : HashEntry) : ∀ m ∈ e.fieldsOf, shape.fields.contains m.1 = true := by
  intro m hm
  rw [List.contains_iff_mem, ← map_fieldsOf e]
  exact List.mem_map_of_mem hm

theorem distinct_fieldsOf (e : HashEntry) : e.fieldsOf.Pairwise fun a b => b.1 ≠ a.1 := by
  have hfields : shape.fields.Pairwise fun a b => b ≠ a := by decide
  rw [← map_fieldsOf e, List.pairwise_map] at hfields
  exact hfields

theorem read_toJson (e : HashEntry) (level : Nat) (t : Text) :
    read (' ' :: (Json.render level e.toJson ++ t)) = .ok (e, t) := by
  obtain ⟨close, hopen, hclose⟩ :=
    Json.render_object level (e.fieldsOf.map fun m => (m.1, m.2.toJson)) t
  have hlen := Json.length_le_membersFrom false (level + 1)
    (e.fieldsOf.map fun m => (m.1, m.2.toJson))
  have hfields := Json.Shape.readFields_members shape hclose e.fieldsOf [] false
    ((Json.membersFrom false (level + 1) (e.fieldsOf.map fun m => (m.1, m.2.toJson)) ++
      close).length + 1)
    (by rw [List.length_map] at hlen; rw [List.length_append]; omega)
    (shape_read_fieldsOf e (level + 1)) (contains_fieldsOf e) (distinct_fieldsOf e)
    (fun _ _ => rfl)
  have hrecord : shape.readRecord (' ' :: (Json.render level e.toJson ++ t)) =
      .ok (e.fieldsOf.reverse ++ [], t) := by
    rw [toJson_eq, hopen, Json.Shape.readRecord, Json.skipSpace_of_isSpace rfl,
      Json.skipSpace_of_not_isSpace rfl]
    exact hfields
  rw [read, hrecord]
  rfl

end HashEntry

namespace HashStore

theorem parse_render {s : HashStore} (h : Text.Increasing s.entries) : parse s.render = .ok s := by
  obtain ⟨close, hopen, hclose⟩ :=
    Json.render_object 0 (s.entries.map fun m => (m.1, m.2.toJson)) ['\n']
  have hlen := Json.length_le_membersFrom false 1 (s.entries.map fun m => (m.1, m.2.toJson))
  have hentries := Json.readEntries_members (fun e t => HashEntry.read_toJson e 1 t) hclose
    s.entries [] false
    ((Json.membersFrom false 1 (s.entries.map fun m => (m.1, m.2.toJson)) ++ close).length + 1)
    (by rw [List.length_map] at hlen; rw [List.length_append]; omega)
  rw [Text.foldl_bind (by simpa using h), List.nil_append] at hentries
  have hmap : Json.readMap HashEntry.read s.render = .ok (s.entries, ['\n']) := by
    change Json.readMap HashEntry.read
      (Json.render 0 (.object (s.entries.map fun m => (m.1, m.2.toJson))) ++ ['\n']) = _
    rw [hopen, Json.readMap, Json.skipSpace_of_not_isSpace rfl]
    exact hentries
  rw [parse, hmap]
  rfl

theorem increasing_readEntries {α : Type} {read : Text → Json.Reading (α × Text)} {n : Nat}
    {es es' : List (Text × α)} {more : Bool} {t rest : Text} (hes : Text.Increasing es)
    (h : Json.readEntries read n es more t = .ok (es', rest)) : Text.Increasing es' := by
  induction n generalizing es more t with
  | zero => cases h
  | succ n ih =>
    rcases Json.readEntries_cases h with ⟨u, -, -, rfl⟩ | ⟨k, u, v, w, x, -, -, -, h⟩
    · exact hes
    · exact ih (hes.bind k v) h

/-- What is read has increasing paths. -/
theorem increasing_parse {t : Text} {s : HashStore} (h : parse t = .ok s) :
    Text.Increasing s.entries := by
  obtain ⟨es, hes, hs⟩ := Json.bind_eq_ok_iff.mp h
  obtain rfl := Except.ok.inj hs
  obtain ⟨⟨es', rest⟩, hmap, hend⟩ := Json.bind_eq_ok_iff.mp hes
  unfold Json.readMap at hmap
  split at hmap
  · dsimp only at hend
    split at hend
    · obtain rfl := Except.ok.inj hend
      exact increasing_readEntries List.Pairwise.nil hmap
    · cases hend
  · cases hmap

theorem leaves_entry (t : Text) : Json.Leaves t (HashEntry.read t) := by
  have hfield : ∀ f t, Json.Leaves t (HashEntry.shape.read f t) := by
    intro f t
    dsimp only [HashEntry.shape]
    split
    · exact (Json.leaves_readTextValue t).bind fun _ u hu => .ok hu
    · exact (Json.leaves_readBoolValue t).bind fun _ u hu => .ok hu
  refine (Json.Shape.leaves_readRecord hfield t).bind fun given u hu => ?_
  dsimp only
  split
  · exact .ok hu
  · exact .error

/-- A text that is read as a store starts and ends with brackets. -/
theorem brackets_of_parse {t : Text} {s : HashStore} (h : parse t = .ok s) :
    (Json.skipSpace t).head? = some '\x7b' ∧ Json.lastVisible? t = some '\x7d' := by
  obtain ⟨es, hes, -⟩ := Json.bind_eq_ok_iff.mp h
  refine ⟨?_, Json.lastVisible?_of_readMap leaves_entry hes⟩
  obtain ⟨es', hmap, -⟩ := Json.bind_eq_ok_iff.mp hes
  unfold Json.readMap at hmap
  split at hmap
  · rename_i u hu
    rw [hu]
    rfl
  · cases hmap

/-- What a store is loaded from. -/
theorem load_eq_ok_iff {fs : FileTree} {path : Text} {s : HashStore} :
    load fs path = .ok s ↔ fs.entryAt? path = none ∧ s = empty ∨
      ∃ content t, fs.entryAt? path = some (.file content) ∧ Utf8.decode content = .ok t ∧
        parse t = .ok s := by
  rw [load, FileTree.exists_eq_isSome]
  cases hat : fs.entryAt? path with
  | none => simp [eq_comm]
  | some e =>
    simp only [Option.isSome_some, Bool.not_true, Bool.false_eq_true, if_false, reduceCtorEq,
      false_and, false_or]
    constructor
    · intro h
      split at h
      · cases h
      · rename_i t ht
        obtain ⟨content, hfile, hdecode⟩ := FileTree.readText_eq_ok_iff.mp ht
        split at h
        · cases h
        · rename_i s' hs
          obtain rfl := Except.ok.inj h
          exact ⟨content, t, hat.symm.trans hfile, hdecode, hs⟩
    · rintro ⟨content, t, he, hdecode, hparse⟩
      have ht : fs.readText path = .ok t :=
        FileTree.readText_eq_ok_iff.mpr ⟨content, hat.trans he, hdecode⟩
      rw [ht]
      simp only [hparse]

theorem increasing_load {fs : FileTree} {path : Text} {s : HashStore}
    (h : load fs path = .ok s) : Text.Increasing s.entries := by
  rcases load_eq_ok_iff.mp h with ⟨-, rfl⟩ | ⟨content, t, -, -, hparse⟩
  · exact List.Pairwise.nil
  · exact increasing_parse hparse

theorem load_of_render {fs : FileTree} {path : Text} {s : HashStore}
    (hs : Text.Increasing s.entries)
    (h : fs.entryAt? path = some (.file (Utf8.encode s.render))) : load fs path = .ok s :=
  load_eq_ok_iff.mpr (Or.inr ⟨_, _, h, Utf8.decode_encode _, parse_render hs⟩)

theorem save_eq_ok {fs fs' : FileTree} {path : Text} {s : HashStore}
    (h : s.save fs path = .ok fs') : fs.write path (Utf8.encode s.render) = .ok fs' := by
  unfold save at h
  split at h
  · cases h
  · rename_i hwrite
    rw [← Except.ok.inj h]
    exact hwrite

@[simp]
theorem get?_update (s : HashStore) (path p : Text) (e : HashEntry) :
    (s.update path e).get? p = if p = path then some e else s.get? p :=
  Text.lookup_bind path p e s.entries

end HashStore

end DocCoverage
