import DocCoverage.Proofs.Json.Loops
import Mathlib.Data.List.Forall2

/-!
# Values that were written and read

A value that was read is not nested too deeply, has the members of its objects in increasing order
of their keys, and its integers fit. Written and read back it has the same shape: only its numbers
are read anew. It is the same text as before exactly if all of them last.
-/
namespace DocCoverage.Json

mutual

/-- What is read of the value's own text: its numbers are read anew. -/
def reread : Json → Reading Json
  | null => .ok null
  | bool b => .ok (bool b)
  | number n => n.reread.map number
  | text t => .ok (text t)
  | array vs => (rereadItems vs).map array
  | object ms => (rereadMembers ms).map object

def rereadItems : List Json → Reading (List Json)
  | [] => .ok []
  | v :: vs => do return (← reread v) :: (← rereadItems vs)

def rereadMembers : List (Text × Json) → Reading (List (Text × Json))
  | [] => .ok []
  | (k, v) :: ms => do return (k, ← reread v) :: (← rereadMembers ms)

end

mutual

/-- The numbers in a value. -/
def numbers : Json → List JsonNumber
  | number n => [n]
  | array vs => numbersOfItems vs
  | object ms => numbersOfMembers ms
  | _ => []

def numbersOfItems : List Json → List JsonNumber
  | [] => []
  | v :: vs => numbers v ++ numbersOfItems vs

def numbersOfMembers : List (Text × Json) → List JsonNumber
  | [] => []
  | (_, v) :: ms => numbers v ++ numbersOfMembers ms

end

/-- The value can be kept with the nesting levels that are left. -/
def WellFormed : (levels : Nat) → Json → Prop
  | _, number n => n.Fits
  | 0, array _ => False
  | 0, object _ => False
  | levels + 1, array vs => ∀ v ∈ vs, WellFormed levels v
  | levels + 1, object ms => Text.Increasing ms ∧ ∀ m ∈ ms, WellFormed levels m.2
  | _, _ => True

theorem rereadItems_eq (vs : List Json) : rereadItems vs = vs.mapM reread := by
  induction vs with
  | nil => rfl
  | cons v vs ih =>
    rw [rereadItems, List.mapM_cons, ih]

theorem rereadMembers_eq (ms : List (Text × Json)) :
    rereadMembers ms = ms.mapM (inMember reread) := by
  induction ms with
  | nil => rfl
  | cons m ms ih =>
    obtain ⟨k, v⟩ := m
    rw [rereadMembers, List.mapM_cons, ih, inMember]
    cases reread v <;> rfl

theorem numbersOfItems_eq (vs : List Json) : numbersOfItems vs = vs.flatMap numbers := by
  induction vs with
  | nil => rfl
  | cons v vs ih => rw [numbersOfItems, List.flatMap_cons, ih]

theorem numbersOfMembers_eq (ms : List (Text × Json)) :
    numbersOfMembers ms = ms.flatMap fun m => numbers m.2 := by
  induction ms with
  | nil => rfl
  | cons m ms ih =>
    obtain ⟨k, v⟩ := m
    rw [numbersOfMembers, List.flatMap_cons, ih]

theorem map_eq_ok_iff {α β : Type} {f : α → β} {x : Reading α} {b : β} :
    x.map f = .ok b ↔ ∃ a, x = .ok a ∧ f a = b := by
  cases x with
  | error e => simp [Except.map]
  | ok a => simp [Except.map]

theorem mapM_eq_ok_iff {α β : Type} {f : α → Reading β} {as : List α} {bs : List β} :
    as.mapM f = .ok bs ↔ List.Forall₂ (fun a b => f a = .ok b) as bs := by
  induction as generalizing bs with
  | nil =>
    rw [List.mapM_nil, List.forall₂_nil_left_iff]
    exact ⟨fun h => (Except.ok.inj h).symm, fun h => h ▸ rfl⟩
  | cons a as ih =>
    rw [List.mapM_cons, List.forall₂_cons_left_iff]
    constructor
    · intro h
      obtain ⟨b, hb, h⟩ := bind_eq_ok_iff.mp h
      obtain ⟨bs', hbs, h⟩ := bind_eq_ok_iff.mp h
      exact ⟨b, bs', hb, ih.mp hbs, (Except.ok.inj h).symm⟩
    · rintro ⟨b, bs', hb, hbs, rfl⟩
      rw [hb, ih.mpr hbs]
      rfl

/-! ## Reading -/

section

variable {levels n : Nat} {v : Json} {t rest : Text}

theorem wellFormed_of_leaf (h : WellFormed 0 v) (levels : Nat) : WellFormed levels v := by
  cases v with
  | array | object => cases h
  | number => cases levels <;> exact h
  | null | bool | text => cases levels <;> trivial

theorem wellFormed_of_bind {α : Type} {r : Reading (α × Text)} {f : α → Json}
    (hf : ∀ a rest, r = .ok (a, rest) → WellFormed 0 (f a))
    (h : (r >>= fun x => .ok (f x.1, x.2)) = .ok (v, rest)) : WellFormed 0 v := by
  obtain ⟨⟨a, u⟩, ha, hx⟩ := bind_eq_ok_iff.mp h
  exact (Prod.mk.inj (Except.ok.inj hx)).1 ▸ hf a u ha

/-- What a reading of a value comes to: a value without parts, an array or an object, with one level
less for the parts. -/
theorem readValue_cases (h : readValue n levels t = .ok (v, rest)) :
    WellFormed 0 v ∨
    (∃ left m u vs, levels = left + 1 ∧ v = .array vs ∧
      itemsWith (fun m => readValue m left) m false u = .ok (vs, rest)) ∨
    ∃ left m u ms, levels = left + 1 ∧ v = .object ms ∧
      membersWith (fun m => readValue m left) m [] false u = .ok (ms, rest) := by
  cases n with
  | zero => cases h
  | succ n =>
    rw [readValue] at h
    split at h
    · cases h
    · exact Or.inl (wellFormed_of_bind (f := fun _ => null) (fun _ _ _ => trivial) h)
    · exact Or.inl (wellFormed_of_bind (f := fun _ => bool true) (fun _ _ _ => trivial) h)
    · exact Or.inl (wellFormed_of_bind (f := fun _ => bool false) (fun _ _ _ => trivial) h)
    · exact Or.inl (wellFormed_of_bind (f := number) (JsonNumber.givesFit_readNumber _ _) h)
    · exact Or.inl (wellFormed_of_bind (f := text) (fun _ _ _ => trivial) h)
    · cases levels with
      | zero => cases h
      | succ left =>
        obtain ⟨⟨vs, u⟩, hvs, h⟩ := bind_eq_ok_iff.mp h
        obtain ⟨rfl, rfl⟩ := Prod.mk.inj (Except.ok.inj h)
        exact Or.inr (Or.inl ⟨left, n, _, vs, rfl, rfl, readItems_eq .. ▸ hvs⟩)
    · cases levels with
      | zero => cases h
      | succ left =>
        obtain ⟨⟨ms, u⟩, hms, h⟩ := bind_eq_ok_iff.mp h
        obtain ⟨rfl, rfl⟩ := Prod.mk.inj (Except.ok.inj h)
        exact Or.inr (Or.inr ⟨left, n, _, ms, rfl, rfl, readMembers_eq .. ▸ hms⟩)
    · split at h
      · exact Or.inl (wellFormed_of_bind (f := number) (JsonNumber.givesFit_readNumber _ _) h)
      · cases h

theorem wellFormed_of_readValue (h : readValue n levels t = .ok (v, rest)) :
    WellFormed levels v := by
  induction levels generalizing n t v rest with
  | zero =>
    rcases readValue_cases h with hv | ⟨left, m, u, vs, hleft, -⟩ | ⟨left, m, u, ms, hleft, -⟩
    · exact hv
    · cases hleft
    · cases hleft
  | succ levels ih =>
    rcases readValue_cases h with hv | ⟨left, m, u, vs, hleft, rfl, hvs⟩ |
      ⟨left, m, u, ms, hleft, rfl, hms⟩
    · exact wellFormed_of_leaf hv _
    · obtain rfl := Nat.succ.inj hleft
      exact of_mem_itemsWith (fun _ _ _ _ => ih) hvs
    · obtain rfl := Nat.succ.inj hleft
      exact of_mem_membersWith (fun _ _ _ _ => ih) hms List.Pairwise.nil fun _ h => nomatch h

theorem readValue_digit {c : Char} {u : Text} (hc : Text.isAsciiDigit c = true)
    (ht : skipSpace t = c :: u) :
    readValue (n + 1) levels t = (readNumber false (c :: u)).map fun x => (.number x.1, x.2) := by
  have hother : ∀ d w, Text.isAsciiDigit d = false → c :: u = d :: w → False := by
    rintro d w hd heq
    rw [(List.cons.inj heq).1, hd] at hc
    cases hc
  rw [readValue, ht]
  split
  · contradiction
  · exact (hother _ _ rfl ‹_›).elim
  · exact (hother _ _ rfl ‹_›).elim
  · exact (hother _ _ rfl ‹_›).elim
  · exact (hother _ _ rfl ‹_›).elim
  · exact (hother _ _ rfl ‹_›).elim
  · exact (hother _ _ rfl ‹_›).elim
  · exact (hother _ _ rfl ‹_›).elim
  · rename_i heq
    obtain ⟨rfl, rfl⟩ := List.cons.inj heq
    rw [if_pos hc]
    cases readNumber false (c :: u) <;> rfl

theorem readsBack_number (x : JsonNumber) (level : Nat) :
    ReadsBack (fun n => readValue n levels) level (.number x) (reread (.number x)) := by
  refine .of_succ fun n t rest ht _ hrest => ?_
  have hnumber := x.readNumber_unsigned hrest
  rw [render, x.render_eq] at ht
  obtain ⟨c, u, hcu, hc⟩ := x.numeral_unsigned.head
  cases hsign : x.isNegative with
  | true =>
    rw [hsign] at ht hnumber
    rw [readValue, ht]
    change (readNumber true (x.unsigned ++ rest) >>= fun y => Except.ok (number y.1, y.2)) = _
    rw [hnumber, reread]
    cases x.reread <;> rfl
  | false =>
    rw [hsign, hcu] at ht hnumber
    rw [readValue_digit hc ht]
    change (readNumber false (c :: u ++ rest)).map _ = _
    rw [hnumber, reread]
    cases x.reread <;> rfl

theorem readsBack_leaf (levels level : Nat) (hv : WellFormed 0 v) :
    ReadsBack (fun n => readValue n levels) level v v.reread := by
  cases v with
  | number x => exact readsBack_number x level
  | array | object => cases hv
  | null =>
    refine .of_succ fun n t rest ht _ _ => ?_
    rw [readValue, ht]
    rfl
  | bool b =>
    refine .of_succ fun n t rest ht _ _ => ?_
    rw [readValue, ht]
    cases b <;> rfl
  | text s =>
    refine .of_succ fun n t rest ht _ _ => ?_
    rw [render, quote_append] at ht
    rw [readValue, ht]
    change (readString (s.flatMap escape ++ '"' :: rest) >>= fun y => Except.ok (text y.1, y.2)) = _
    rw [readString_quoted]
    rfl

/-- Members that are made of others in turn have their keys, so binding them in turn builds them. -/
theorem foldl_bind_of_mapM_inMember {α β : Type} {f : α → Reading β} {ms : List (Text × α)}
    {es : List (Text × β)} (h : ms.mapM (inMember f) = .ok es) (hms : Text.Increasing ms) :
    es.foldl (fun es e => Text.bind e.1 e.2 es) [] = es := by
  have hkeys : List.Forall₂ (fun a b => a = b) (ms.map Prod.fst) (es.map Prod.fst) := by
    rw [List.forall₂_map_left_iff, List.forall₂_map_right_iff]
    refine (mapM_eq_ok_iff.mp h).imp fun m e hm => ?_
    obtain ⟨v, -, rfl⟩ := map_eq_ok_iff.mp hm
    rfl
  rw [List.forall₂_eq_eq_eq] at hkeys
  have hpairs : (es.map Prod.fst).Pairwise fun a b => Text.lt a b = true :=
    hkeys ▸ List.pairwise_map.mpr hms
  have hes : Text.Increasing es := List.pairwise_map.mp hpairs
  exact Text.foldl_bind (show Text.Increasing ([] ++ es) from hes)

/-- A value that can be kept is read back, up to its numbers. -/
theorem readsBack_value (hv : WellFormed levels v) (level : Nat) :
    ReadsBack (fun n => readValue n levels) level v v.reread := by
  -- on the levels, not on the fuel: the parts are read with any fuel that is enough for them
  induction levels generalizing v level with
  | zero =>
    exact readsBack_leaf 0 level hv
  | succ levels ih =>
    cases v with
    | null | bool | number | text => exact readsBack_leaf _ level hv
    | array vs =>
      refine .of_succ fun n t rest ht hn _ => ?_
      rw [render_array_append] at ht
      have hlength : (itemsFrom false (level + 1) (vs.map id)).length < n := by
        simp only [render_array, List.length_cons, List.length_append] at hn
        rw [List.map_id]
        omega
      have hitems := itemsWith_items (skipSpace_closing (c := ']') rfl level vs rest) vs
        (fun v hmem => ih (hv v hmem) (level + 1)) false n hlength
      rw [List.map_id', ← readItems_eq] at hitems
      rw [readValue, ht]
      change (readItems n levels false _ >>= fun y => Except.ok (array y.1, y.2)) = _
      rw [hitems, reread, rereadItems_eq]
      cases vs.mapM reread <;> rfl
    | object ms =>
      obtain ⟨hkeys, hvalues⟩ := hv
      refine .of_succ fun n t rest ht hn _ => ?_
      rw [render_members_append] at ht
      have hlength : (membersFrom false (level + 1) ms).length < n := by
        simp only [render_members, List.length_cons, List.length_append] at hn
        omega
      have hmembers := membersWith_members (skipSpace_closing (c := '\x7d') rfl level ms rest) ms []
        (fun m hmem => ih (hvalues m hmem) (level + 1)) false n hlength
      rw [← readMembers_eq] at hmembers
      rw [readValue, ht]
      change (readMembers n levels [] false _ >>= fun y => Except.ok (object y.1, y.2)) = _
      rw [hmembers, reread, rereadMembers_eq]
      cases hread : ms.mapM (inMember reread) with
      | error e => rfl
      | ok es => simp only [Except.map, bind, Except.bind, foldl_bind_of_mapM_inMember hread hkeys]

end

/-! ## Values that last -/

/-- Written and read back, the value is written the same way again. -/
def Lasts (level : Nat) (v : Json) : Prop :=
  ∃ w, v.reread = .ok w ∧ render level w = render level v

section

variable {levels level : Nat} {v w : Json} {a b : Text}

theorem wellFormed_of_reread (hv : WellFormed levels v) (hw : v.reread = .ok w) :
    WellFormed levels w := by
  have hread := readsBack_value hv 0 ((render 0 v).length + 1) (render 0 v ++ []) []
    (skipSpace_render 0 v []) (Nat.lt_succ_self _) stops_nil
  rw [hw] at hread
  exact wellFormed_of_readValue hread

/-- A value ends where the value that is read of it ends. -/
theorem render_cancel (hv : WellFormed levels v) (hw : v.reread = .ok w)
    (h : render level v ++ a = render level w ++ b) (ha : Stops a) (hb : Stops b) :
    render level v = render level w ∧ a = b := by
  -- the same text is read twice, with fuel enough for both values
  obtain ⟨n, hn⟩ : ∃ n, n = (render level v).length + (render level w).length + 1 := ⟨_, rfl⟩
  have hone := readsBack_value hv level n _ a (skipSpace_render level v a) (by omega) ha
  have htwo := readsBack_value (wellFormed_of_reread hv hw) level n (render level v ++ a) b
    (by rw [skipSpace_render, h]) (by omega) hb
  rw [hone, hw] at htwo
  obtain ⟨x, -, hx⟩ := map_eq_ok_iff.mp htwo.symm
  obtain rfl : b = a := (Prod.mk.inj hx).2
  exact ⟨List.append_cancel_right h, rfl⟩

theorem items_last_iff (more : Bool) {vs : List Json} (hformed : ∀ v ∈ vs, WellFormed levels v)
    (hlast : ∀ v ∈ vs, Lasts level v ↔ ∀ n ∈ v.numbers, n.lasts = true) :
    (∃ ws, vs.mapM reread = .ok ws ∧ itemsFrom more level ws = itemsFrom more level vs) ↔
      ∀ n ∈ vs.flatMap numbers, n.lasts = true := by
  induction vs generalizing more with
  | nil => exact ⟨fun _ => List.forall_mem_nil _, fun _ => ⟨[], rfl, rfl⟩⟩
  | cons v vs ih =>
    obtain ⟨hv, hvs⟩ := List.forall_mem_cons.mp hlast
    obtain ⟨hfv, hfvs⟩ := List.forall_mem_cons.mp hformed
    have hrest := ih true hfvs hvs
    rw [List.flatMap_cons, List.forall_mem_append, ← hv, ← hrest]
    constructor
    · rintro ⟨ws, hread, htext⟩
      obtain ⟨w, ws, hw, hws, rfl⟩ := List.forall₂_cons_left_iff.mp (mapM_eq_ok_iff.mp hread)
      obtain ⟨hone, hothers⟩ := render_cancel hfv hw (List.append_cancel_left htext).symm
        (List.append_nil (itemsFrom true level vs) ▸ stops_items stops_nil level vs)
        (List.append_nil (itemsFrom true level ws) ▸ stops_items stops_nil level ws)
      exact ⟨⟨w, hw, hone.symm⟩, ws, mapM_eq_ok_iff.mpr hws, hothers.symm⟩
    · rintro ⟨⟨w, hw, hone⟩, ws, hws, hothers⟩
      refine ⟨w :: ws, mapM_eq_ok_iff.mpr (.cons hw (mapM_eq_ok_iff.mp hws)), ?_⟩
      rw [itemsFrom, itemsFrom, hone, hothers]

/-- Members last if their numbers do, when this holds of each. -/
theorem members_last_iff (more : Bool) {ms : List (Text × Json)}
    (hformed : ∀ m ∈ ms, WellFormed levels m.2)
    (hlast : ∀ m ∈ ms, Lasts level m.2 ↔ ∀ n ∈ m.2.numbers, n.lasts = true) :
    (∃ es, ms.mapM (inMember reread) = .ok es ∧
        membersFrom more level es = membersFrom more level ms) ↔
      ∀ n ∈ ms.flatMap fun m => m.2.numbers, n.lasts = true := by
  induction ms generalizing more with
  | nil => exact ⟨fun _ => List.forall_mem_nil _, fun _ => ⟨[], rfl, rfl⟩⟩
  | cons m ms ih =>
    obtain ⟨hm, hms⟩ := List.forall_mem_cons.mp hlast
    obtain ⟨hfm, hfms⟩ := List.forall_mem_cons.mp hformed
    have hrest := ih true hfms hms
    rw [List.flatMap_cons, List.forall_mem_append, ← hm, ← hrest]
    constructor
    · rintro ⟨es, hread, htext⟩
      obtain ⟨e, es, he, hes, rfl⟩ := List.forall₂_cons_left_iff.mp (mapM_eq_ok_iff.mp hread)
      obtain ⟨w, hw, rfl⟩ := map_eq_ok_iff.mp he
      have hvalues := List.append_cancel_left (List.append_cancel_left htext)
      obtain ⟨hone, hothers⟩ := render_cancel hfm hw
        (List.cons.inj (List.cons.inj hvalues).2).2.symm
        (List.append_nil (membersFrom true level ms) ▸ stops_members stops_nil level ms)
        (List.append_nil (membersFrom true level es) ▸ stops_members stops_nil level es)
      exact ⟨⟨w, hw, hone.symm⟩, es, mapM_eq_ok_iff.mpr hes, hothers.symm⟩
    · rintro ⟨⟨w, hw, hone⟩, es, hes, hothers⟩
      refine ⟨(m.1, w) :: es,
        mapM_eq_ok_iff.mpr (.cons (map_eq_ok_iff.mpr ⟨w, hw, rfl⟩) (mapM_eq_ok_iff.mp hes)), ?_⟩
      rw [membersFrom, membersFrom, hone, hothers]

theorem lasts_leaf_iff (level : Nat) (hv : WellFormed 0 v) :
    Lasts level v ↔ ∀ n ∈ v.numbers, n.lasts = true := by
  cases v with
  | array | object => cases hv
  | null => exact ⟨fun _ => List.forall_mem_nil _, fun _ => ⟨null, rfl, rfl⟩⟩
  | bool b => exact ⟨fun _ => List.forall_mem_nil _, fun _ => ⟨bool b, rfl, rfl⟩⟩
  | text t => exact ⟨fun _ => List.forall_mem_nil _, fun _ => ⟨text t, rfl, rfl⟩⟩
  | number n =>
    rw [Lasts, numbers, List.forall_mem_singleton, JsonNumber.lasts_iff]
    constructor
    · rintro ⟨w, hw, htext⟩
      obtain ⟨m, hm, rfl⟩ := map_eq_ok_iff.mp hw
      exact ⟨m, hm, htext⟩
    · rintro ⟨m, hm, htext⟩
      exact ⟨number m, map_eq_ok_iff.mpr ⟨m, hm, rfl⟩, htext⟩

theorem closing_eq {α β : Type} {f : α → Reading β} {as : List α} {bs : List β}
    (h : as.mapM f = .ok bs) (level : Nat) : closing level bs = closing level as := by
  cases mapM_eq_ok_iff.mp h <;> rfl

theorem lasts_array_iff {vs : List Json} : Lasts level (.array vs) ↔
    ∃ ws, vs.mapM reread = .ok ws ∧
      itemsFrom false (level + 1) ws = itemsFrom false (level + 1) vs := by
  rw [Lasts, reread, rereadItems_eq]
  constructor
  · rintro ⟨w, hw, htext⟩
    obtain ⟨ws, hws, rfl⟩ := map_eq_ok_iff.mp hw
    rw [render_array, render_array, closing_eq hws] at htext
    exact ⟨ws, hws, List.append_cancel_right (List.cons.inj htext).2⟩
  · rintro ⟨ws, hws, htext⟩
    refine ⟨.array ws, map_eq_ok_iff.mpr ⟨ws, hws, rfl⟩, ?_⟩
    rw [render_array, render_array, closing_eq hws, htext]

theorem lasts_object_iff {ms : List (Text × Json)} : Lasts level (.object ms) ↔
    ∃ es, ms.mapM (inMember reread) = .ok es ∧
      membersFrom false (level + 1) es = membersFrom false (level + 1) ms := by
  rw [Lasts, reread, rereadMembers_eq]
  constructor
  · rintro ⟨w, hw, htext⟩
    obtain ⟨es, hes, rfl⟩ := map_eq_ok_iff.mp hw
    rw [render_members, render_members, closing_eq hes] at htext
    exact ⟨es, hes, List.append_cancel_right (List.cons.inj htext).2⟩
  · rintro ⟨es, hes, htext⟩
    refine ⟨.object es, map_eq_ok_iff.mpr ⟨es, hes, rfl⟩, ?_⟩
    rw [render_members, render_members, closing_eq hes, htext]

/-- A well-formed value lasts exactly if all its numbers do. -/
theorem lasts_iff_numbers (hv : WellFormed levels v) (level : Nat) :
    Lasts level v ↔ ∀ n ∈ v.numbers, n.lasts = true := by
  induction levels generalizing v level with
  | zero =>
    exact lasts_leaf_iff level hv
  | succ levels ih =>
    cases v with
    | null | bool | number | text => exact lasts_leaf_iff level hv
    | array vs =>
      rw [lasts_array_iff, numbers, numbersOfItems_eq]
      exact items_last_iff false hv fun v hmem => ih (hv v hmem) (level + 1)
    | object ms =>
      rw [lasts_object_iff, numbers, numbersOfMembers_eq]
      exact members_last_iff false hv.2 fun m hmem => ih (hv.2 m hmem) (level + 1)

theorem fits_of_mem_numbers (hv : WellFormed levels v) : ∀ n ∈ v.numbers, n.Fits := by
  have hleaf : ∀ {v : Json}, WellFormed 0 v → ∀ n ∈ v.numbers, n.Fits := by
    intro v hv
    cases v with
    | array | object => cases hv
    | null | bool | text => exact List.forall_mem_nil _
    | number n => exact List.forall_mem_singleton.mpr hv
  induction levels generalizing v with
  | zero => exact hleaf hv
  | succ levels ih =>
    cases v with
    | null | bool | number | text => exact hleaf hv
    | array vs =>
      rw [numbers, numbersOfItems_eq, List.forall_mem_flatMap]
      exact fun v hmem => ih (hv v hmem)
    | object ms =>
      rw [numbers, numbersOfMembers_eq, List.forall_mem_flatMap]
      exact fun m hmem => ih (hv.2 m hmem)

/-- A well-formed value lasts exactly if its numbers that are no integers do. -/
theorem lasts_iff (hv : WellFormed levels v) (level : Nat) :
    Lasts level v ↔ ∀ n ∈ v.numbers, n.isReal = true → n.lasts = true := by
  rw [lasts_iff_numbers hv]
  refine forall₂_congr fun n hn => ⟨fun h _ => h, fun h => ?_⟩
  cases hreal : n.isReal with
  | true => exact h hreal
  | false => exact JsonNumber.lasts_of_fits (fits_of_mem_numbers hv n hn) hreal

end

end DocCoverage.Json
