import DocCoverage.Json.Shape
import Mathlib.Data.List.TakeDrop
import Mathlib.Data.List.TakeWhile

/-!
# What a reader leaves

Whatever a reader of JSON reads, the text that it leaves is the end of the text that it was given.
A map ends with its closing bracket, so that a file which is read as a map ends with one too.
-/
namespace DocCoverage.Json

theorem bind_eq_ok_iff {α β : Type} {x : Reading α} {f : α → Reading β} {b : β} :
    (x >>= f) = .ok b ↔ ∃ a, x = .ok a ∧ f a = .ok b := by
  cases x with
  | error e => simp [bind, Except.bind]
  | ok a => simp [bind, Except.bind]

/-- A successful reading leaves an end of the text. -/
def Leaves {α : Type} (t : Text) (r : Reading (α × Text)) : Prop :=
  ∀ v rest, r = .ok (v, rest) → rest <:+ t

namespace Leaves

variable {α β : Type} {t u : Text} {r : Reading (α × Text)}

theorem error {e : Fault} : Leaves t (.error e : Reading (α × Text)) := fun _ _ h => nomatch h

theorem ok {v : α} (h : u <:+ t) : Leaves t (.ok (v, u)) := by
  intro w rest hok
  obtain ⟨-, rfl⟩ := Prod.mk.inj (Except.ok.inj hok)
  exact h

theorem mono (h : Leaves u r) (hu : u <:+ t) : Leaves t r := fun v rest hok =>
  (h v rest hok).trans hu

theorem bind {f : α × Text → Reading (β × Text)} (h : Leaves t r)
    (hf : ∀ v u, u <:+ t → Leaves t (f (v, u))) : Leaves t (r >>= f) := by
  intro w rest hok
  obtain ⟨⟨v, u⟩, hr, hfu⟩ := bind_eq_ok_iff.mp hok
  exact hf v u (h v u hr) w rest hfu

end Leaves

theorem skipSpace_suffix (t : Text) : skipSpace t <:+ t := List.dropWhile_suffix _

theorem suffix_of_skipSpace {c : Char} {t u : Text} (h : skipSpace t = c :: u) : u <:+ t :=
  (List.suffix_cons c u).trans (h ▸ skipSpace_suffix t)

theorem leaves_readWord (word t : Text) : Leaves t (readWord word t) := by
  induction word generalizing t with
  | nil => exact .ok (List.suffix_refl t)
  | cons c word ih =>
    cases t with
    | nil => exact .error
    | cons d t =>
      rw [readWord]
      split
      · exact (ih t).mono (List.suffix_cons d t)
      · exact .error

theorem leaves_readHex4 (t : Text) : Leaves t (readHex4 t) := by
  unfold readHex4
  split
  · exact .error
  · split
    · exact .ok (List.drop_suffix 4 t)
    · exact .error

theorem leaves_readCode (t : Text) : Leaves t (readCode t) := by
  refine (leaves_readHex4 t).bind fun n u hu => ?_
  dsimp only
  split
  · exact .error
  · split
    · exact .ok hu
    · split
      · exact .error
      · exact .error
      · rename_i w
        have hw : w <:+ t :=
          ((List.suffix_cons 'u' w).trans (List.suffix_cons '\\' _)).trans hu
        refine ((leaves_readHex4 w).mono hw).bind fun m x hx => ?_
        dsimp only
        split
        · exact .error
        · exact .ok hx
      · exact .error

theorem leaves_readChars (n : Nat) (t : Text) : Leaves t (readChars n t) := by
  induction n generalizing t with
  | zero => exact .error
  | succ n ih =>
    cases t with
    | nil => exact .error
    | cons c t =>
      -- what is left of the characters behind the first is left of the text
      have hrest : ∀ (d : Char) (u : Text), u <:+ c :: t →
          Leaves (c :: t) (readChars n u >>= fun r => .ok (d :: r.1, r.2)) := fun d u hu =>
        ((ih u).mono hu).bind fun s v hv => .ok hv
      rw [readChars.eq_def]
      dsimp only
      split
      · exact .ok (List.suffix_cons c t)
      · split
        · split
          · exact .error
          · rename_i u
            have hu : u <:+ c :: 'u' :: u := (List.suffix_cons 'u' u).trans (List.suffix_cons c _)
            exact ((leaves_readCode u).mono hu).bind fun d v hv => hrest d v hv
          · rename_i e u _
            have hu : u <:+ c :: e :: u := (List.suffix_cons e u).trans (List.suffix_cons c _)
            split
            · exact .error
            · exact hrest _ u hu
        · split
          · exact .error
          · exact hrest c t (List.suffix_cons c t)

theorem leaves_readString (t : Text) : Leaves t (readString t) := leaves_readChars _ t

theorem leaves_skipChars (n : Nat) (t : Text) : Leaves t (skipChars n t) := by
  induction n generalizing t with
  | zero => exact .error
  | succ n ih =>
    cases t with
    | nil => exact .error
    | cons c t =>
      rw [skipChars.eq_def]
      dsimp only
      split
      · exact .ok (List.suffix_cons c t)
      · split
        · split
          · exact .error
          · rename_i u
            have hu : u <:+ c :: 'u' :: u := (List.suffix_cons 'u' u).trans (List.suffix_cons c _)
            exact ((leaves_readHex4 u).mono hu).bind fun _ v hv => (ih v).mono hv
          · rename_i e u _
            have hu : u <:+ c :: e :: u := (List.suffix_cons e u).trans (List.suffix_cons c _)
            split
            · exact (ih u).mono hu
            · exact .error
        · split
          · exact .error
          · exact (ih t).mono (List.suffix_cons c t)

theorem digitsOf_suffix {t digits rest : Text} (h : digitsOf t = (digits, rest)) : rest <:+ t := by
  rw [digitsOf, List.span_eq_takeWhile_dropWhile] at h
  exact (Prod.mk.inj h).2 ▸ List.dropWhile_suffix _

theorem leaves_skipDigits (t : Text) : Leaves t (skipDigits t) := by
  unfold skipDigits
  split
  · exact .error
  · rename_i h
    exact .ok (digitsOf_suffix h)

theorem leaves_skipExponent (t : Text) : Leaves t (skipExponent t) := by
  have hsigned : ∀ (c d : Char) (u : Text), Leaves (c :: d :: u) (skipDigits u) := fun c d u =>
    (leaves_skipDigits u).mono ((List.suffix_cons d u).trans (List.suffix_cons c _))
  have hplain : ∀ (c : Char) (u : Text), Leaves (c :: u) (skipDigits u) := fun c u =>
    (leaves_skipDigits u).mono (List.suffix_cons c u)
  unfold skipExponent
  split
  · dsimp only
    split
    · exact hsigned _ _ _
    · exact hsigned _ _ _
    · exact hplain _ _
  · dsimp only
    split
    · exact hsigned _ _ _
    · exact hsigned _ _ _
    · exact hplain _ _
  · exact .ok (List.suffix_refl _)

theorem leaves_skipNumber (t : Text) : Leaves t (skipNumber t) := by
  unfold skipNumber
  split
  · exact .error
  · exact .error
  · rename_i rest _ _ h
    have hrest : rest <:+ t := (List.suffix_cons '.' rest).trans (digitsOf_suffix h)
    exact ((leaves_skipDigits rest).mono hrest).bind fun _ u hu => (leaves_skipExponent u).mono hu
  · rename_i h
    exact (leaves_skipExponent _).mono (digitsOf_suffix h)

/-- The three readers that pass over values call each other, so they are followed together. -/
theorem leaves_skip (n : Nat) : (∀ t, Leaves t (skipValue n t)) ∧
    (∀ more t, Leaves t (skipItems n more t)) ∧ ∀ more t, Leaves t (skipMembers n more t) := by
  induction n with
  | zero => exact ⟨fun _ => .error, fun _ _ => .error, fun _ _ => .error⟩
  | succ n ih =>
    obtain ⟨ihValue, ihItems, ihMembers⟩ := ih
    refine ⟨fun t => ?_, fun more t => ?_, fun more t => ?_⟩
    · rw [skipValue]
      split
      · exact .error
      · exact (leaves_readWord _ _).mono (suffix_of_skipSpace ‹_›)
      · exact (leaves_readWord _ _).mono (suffix_of_skipSpace ‹_›)
      · exact (leaves_readWord _ _).mono (suffix_of_skipSpace ‹_›)
      · exact (leaves_skipNumber _).mono (suffix_of_skipSpace ‹_›)
      · exact (leaves_skipChars _ _).mono (suffix_of_skipSpace ‹_›)
      · exact (ihItems _ _).mono (suffix_of_skipSpace ‹_›)
      · exact (ihMembers _ _).mono (suffix_of_skipSpace ‹_›)
      · rename_i h
        split
        · exact (leaves_skipNumber _).mono (h ▸ skipSpace_suffix t)
        · exact .error
    · rw [skipItems]
      split
      · exact .error
      · exact .ok (suffix_of_skipSpace ‹_›)
      · rename_i c u _ h
        have hu : (if more = true then u else c :: u) <:+ t := by
          split
          · exact suffix_of_skipSpace h
          · exact h ▸ skipSpace_suffix t
        split
        · exact .error
        · exact ((ihValue _).mono hu).bind fun _ v hv => (ihItems true v).mono hv
    · rw [skipMembers]
      split
      · exact .error
      · exact .ok (suffix_of_skipSpace ‹_›)
      · rename_i c u _ h
        have hu : (if more = true then u else c :: u) <:+ t := by
          split
          · exact suffix_of_skipSpace h
          · exact h ▸ skipSpace_suffix t
        split
        · exact .error
        · split
          · exact .error
          · rename_i v hv
            have hkey :=
              (leaves_skipChars (v.length + 1) v).mono ((suffix_of_skipSpace hv).trans hu)
            refine hkey.bind fun _ w hw => ?_
            dsimp only
            split
            · exact .error
            · rename_i x hx
              have hvalue := (ihValue x).mono ((suffix_of_skipSpace hx).trans hw)
              exact hvalue.bind fun _ y hy => (ihMembers true y).mono hy
            · exact .error
          · exact .error

theorem leaves_readTextValue (t : Text) : Leaves t (readTextValue t) := by
  unfold readTextValue
  split
  · exact (leaves_readString _).mono (suffix_of_skipSpace ‹_›)
  · exact .error

theorem leaves_readBoolValue (t : Text) : Leaves t (readBoolValue t) := by
  unfold readBoolValue
  split
  · exact ((leaves_readWord _ _).mono (suffix_of_skipSpace ‹_›)).bind fun _ u hu => .ok hu
  · exact ((leaves_readWord _ _).mono (suffix_of_skipSpace ‹_›)).bind fun _ u hu => .ok hu
  · exact .error

theorem leaves_readColon (t : Text) : Leaves t (readColon t) := by
  unfold readColon
  split
  · exact .error
  · exact .ok (suffix_of_skipSpace ‹_›)
  · exact .error

theorem suffix_of_readClose {bracket : Char} {t rest : Text}
    (h : readClose bracket t = .ok ((), rest)) : bracket :: rest <:+ t := by
  unfold readClose at h
  split at h
  · cases h
  · rename_i c u hu
    split at h
    · rename_i hc
      obtain rfl := eq_of_beq hc
      obtain ⟨-, rfl⟩ := Prod.mk.inj (Except.ok.inj h)
      exact hu ▸ skipSpace_suffix t
    · cases h

theorem leaves_readClose (bracket : Char) (t : Text) : Leaves t (readClose bracket t) :=
  fun _ rest h => (List.suffix_cons bracket rest).trans (suffix_of_readClose h)

theorem suffix_of_nextItem {more : Bool} {t u : Text} {item : Option Text}
    (h : nextItem more t = .ok (item, u)) : u <:+ t ∧ ∀ v, item = some v → v <:+ t := by
  have hall := skipSpace_suffix t
  unfold nextItem at h
  split at h
  · cases h
  · rename_i w hw
    obtain ⟨rfl, rfl⟩ := Prod.mk.inj (Except.ok.inj h)
    exact ⟨hw ▸ hall, fun _ hv => nomatch hv⟩
  · rename_i c w _ hw
    split at h
    · obtain ⟨rfl, rfl⟩ := Prod.mk.inj (Except.ok.inj h)
      exact ⟨hw ▸ hall, fun v hv => Option.some.inj hv ▸ hw ▸ hall⟩
    · split at h
      · cases h
      · split at h
        · cases h
        · cases h
        · obtain ⟨rfl, rfl⟩ := Prod.mk.inj (Except.ok.inj h)
          have hrest := (skipSpace_suffix w).trans (suffix_of_skipSpace hw)
          exact ⟨hrest, fun v hv => Option.some.inj hv ▸ hrest⟩

theorem leaves_nextKey (more : Bool) (t : Text) : Leaves t (nextKey more t) := by
  unfold nextKey
  split
  · exact .error
  · rename_i h
    exact .ok (h ▸ skipSpace_suffix t)
  · rename_i c u _ h
    have hu : (if more = true then skipSpace u else c :: u) <:+ t := by
      split
      · exact (skipSpace_suffix u).trans (suffix_of_skipSpace h)
      · exact h ▸ skipSpace_suffix t
    split
    · exact .error
    · split
      · exact .error
      · rename_i v hv
        have hstring := (leaves_readString v).mono ((List.suffix_cons '"' v).trans (hv ▸ hu))
        exact hstring.bind fun _ w hw => .ok hw
      · exact .error

namespace Shape

variable {α : Type} {s : Shape α}

theorem leaves_readSequence (hread : ∀ f t, Leaves t (s.read f t)) (fields : List Text)
    (more : Bool) (t : Text) : Leaves t (s.readSequence fields more t) := by
  induction fields generalizing more t with
  | nil => exact (leaves_readClose _ t).bind fun _ u hu => .ok hu
  | cons f fields ih =>
    intro v rest h
    rw [readSequence] at h
    obtain ⟨⟨item, u⟩, hitem, h⟩ := bind_eq_ok_iff.mp h
    obtain ⟨hu, hv⟩ := suffix_of_nextItem hitem
    cases item with
    | none =>
      refine ((leaves_readClose ']' u).mono hu).bind (fun _ w hw => ?_) v rest h
      exact .ok hw
    | some w =>
      refine ((hread f w).mono (hv w rfl)).bind (fun a x hx => ?_) v rest h
      exact ((ih true x).mono hx).bind fun _ y hy => .ok hy

theorem leaves_readFields (hread : ∀ f t, Leaves t (s.read f t)) (n : Nat)
    (found : List (Text × α)) (more : Bool) (t : Text) :
    Leaves t (s.readFields n found more t) := by
  induction n generalizing found more t with
  | zero => exact .error
  | succ n ih =>
    rw [readFields]
    refine (leaves_nextKey more t).bind fun key u hu => ?_
    cases key with
    | none => exact ((leaves_readClose _ u).mono hu).bind fun _ v hv => .ok hv
    | some k =>
      have hcolon := (leaves_readColon u).mono hu
      dsimp only
      split
      · split
        · exact .error
        · refine hcolon.bind fun _ v hv => ?_
          exact ((hread k v).mono hv).bind fun _ w hw => (ih _ true w).mono hw
      · split
        · refine hcolon.bind fun _ v hv => ?_
          exact (((leaves_skip _).1 v).mono hv).bind fun _ w hw => (ih _ true w).mono hw
        · exact .error

theorem leaves_readRecord (hread : ∀ f t, Leaves t (s.read f t)) (t : Text) :
    Leaves t (s.readRecord t) := by
  unfold readRecord
  split
  · exact (leaves_readSequence hread _ _ _).mono (suffix_of_skipSpace ‹_›)
  · exact (leaves_readFields hread _ _ _ _).mono (suffix_of_skipSpace ‹_›)
  · exact .error

end Shape

section

variable {α : Type} {read : Text → Reading (α × Text)}

/-- What one step of reading a map comes to: its end, or one more entry. -/
theorem readEntries_cases {n : Nat} {es es' : List (Text × α)} {more : Bool} {t rest : Text}
    (h : readEntries read (n + 1) es more t = .ok (es', rest)) :
    (∃ u, nextKey more t = .ok (none, u) ∧ readClose '\x7d' u = .ok ((), rest) ∧ es' = es) ∨
      ∃ k u v w x, nextKey more t = .ok (some k, u) ∧ readColon u = .ok ((), w) ∧
        read w = .ok (v, x) ∧ readEntries read n (Text.bind k v es) true x = .ok (es', rest) := by
  rw [readEntries] at h
  obtain ⟨⟨key, u⟩, hkey, h⟩ := bind_eq_ok_iff.mp h
  cases key with
  | none =>
    obtain ⟨⟨_, w⟩, hclose, h⟩ := bind_eq_ok_iff.mp h
    obtain ⟨rfl, rfl⟩ := Prod.mk.inj (Except.ok.inj h)
    exact Or.inl ⟨u, hkey, hclose, rfl⟩
  | some k =>
    obtain ⟨⟨_, w⟩, hcolon, h⟩ := bind_eq_ok_iff.mp h
    obtain ⟨⟨v, x⟩, hvalue, h⟩ := bind_eq_ok_iff.mp h
    exact Or.inr ⟨k, u, v, w, x, hkey, hcolon, hvalue, h⟩

theorem suffix_of_readEntries (hread : ∀ t, Leaves t (read t)) {n : Nat}
    {es es' : List (Text × α)} {more : Bool} {t rest : Text}
    (h : readEntries read n es more t = .ok (es', rest)) : '\x7d' :: rest <:+ t := by
  induction n generalizing es more t with
  | zero => cases h
  | succ n ih =>
    rcases readEntries_cases h with ⟨u, hkey, hclose, -⟩ | ⟨k, u, v, w, x, hkey, hcolon, hvalue, h⟩
    · exact (suffix_of_readClose hclose).trans (leaves_nextKey more t _ _ hkey)
    · have hx : x <:+ t := ((hread w _ _ hvalue).trans (leaves_readColon u _ _ hcolon)).trans
        (leaves_nextKey more t _ _ hkey)
      exact (ih h).trans hx

/-- The last character of the text that is no blank. -/
def lastVisible? (t : Text) : Option Char := (t.reverse.dropWhile isSpace).head?

/-- A file that is read as a map ends with a closing bracket. -/
theorem lastVisible?_of_readMap (hread : ∀ t, Leaves t (read t)) {t : Text}
    {es : List (Text × α)} (h : finish (readMap read t) = .ok es) :
    lastVisible? t = some '\x7d' := by
  obtain ⟨⟨es', rest⟩, hmap, hend⟩ := bind_eq_ok_iff.mp h
  have hsuffix : '\x7d' :: rest <:+ t := by
    unfold readMap at hmap
    split at hmap
    · exact (suffix_of_readEntries hread hmap).trans (suffix_of_skipSpace ‹_›)
    · cases hmap
  have hblank : skipSpace rest = [] := by
    by_contra hne
    dsimp only at hend
    rw [if_neg (by simpa using hne)] at hend
    cases hend
  have hall : ∀ c ∈ rest.reverse, isSpace c = true := fun c hc =>
    List.dropWhile_eq_nil_iff.mp hblank c (List.mem_reverse.mp hc)
  obtain ⟨front, rfl⟩ := hsuffix
  rw [lastVisible?, List.reverse_append, List.reverse_cons, List.append_assoc,
    List.dropWhile_append_of_pos hall]
  rfl

end

end DocCoverage.Json
