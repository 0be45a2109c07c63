import DocCoverage.Proofs.Json.Lasting
import DocCoverage.Proofs.Json.Members
import DocCoverage.Proofs.Json.Rest
import DocCoverage.Proofs.Text.Maps

/-!
# Items and members in turn

Arrays and objects are read in two places: inside values that are kept, where an item gets the fuel
that its array has left, and as lists and maps of one sort. Both are the same loop over items and
the same loop over members. A loop whose reader reads every value back reads the whole text back.
-/
namespace DocCoverage.Json

section

variable {α : Type} (read : Nat → Text → Reading (α × Text))

/-- The items of an array, each read with the fuel that is left. -/
def itemsWith : (fuel : Nat) → (more : Bool) → Text → Reading (List α × Text)
  | 0, _, _ => .error .unexpectedEnd
  | n + 1, more, t => do
    match ← nextItem more t with
    | (none, t) =>
      let (_, t) ← readClose ']' t
      return ([], t)
    | (some t, _) =>
      let (v, t) ← read n t
      let (vs, t) ← itemsWith n true t
      return (v :: vs, t)

/-- The members of an object, each value read with the fuel that is left. -/
def membersWith : (fuel : Nat) → List (Text × α) → (more : Bool) → Text →
    Reading (List (Text × α) × Text)
  | 0, _, _, _ => .error .unexpectedEnd
  | n + 1, members, more, t => do
    match ← nextKey more t with
    | (none, t) =>
      let (_, t) ← readClose '\x7d' t
      return (members, t)
    | (some k, t) =>
      let (_, t) ← readColon t
      let (v, t) ← read n t
      membersWith n (Text.bind k v members) true t

theorem readItems_eq (n levels : Nat) (more : Bool) (t : Text) :
    readItems n levels more t = itemsWith (fun m => readValue m levels) n more t := by
  induction n generalizing more t with
  | zero => rw [readItems, itemsWith]
  | succ n ih =>
    rw [readItems, itemsWith]
    refine congrArg (nextItem more t >>= ·) (funext fun next => ?_)
    rcases next with ⟨_ | u, w⟩
    · rfl
    · simp only [ih]

theorem readMembers_eq (n levels : Nat) (ms : List (Text × Json)) (more : Bool) (t : Text) :
    readMembers n levels ms more t = membersWith (fun m => readValue m levels) n ms more t := by
  induction n generalizing ms more t with
  | zero => rw [readMembers, membersWith]
  | succ n ih =>
    rw [readMembers, membersWith]
    refine congrArg (nextKey more t >>= ·) (funext fun next => ?_)
    rcases next with ⟨_ | u, w⟩
    · rfl
    · simp only [ih]

theorem readAll_eq (read : Text → Reading (α × Text)) (n : Nat) (more : Bool) (t : Text) :
    readAll read n more t = itemsWith (fun _ => read) n more t := by
  induction n generalizing more t with
  | zero => rw [readAll, itemsWith]
  | succ n ih =>
    rw [readAll, itemsWith]
    refine congrArg (nextItem more t >>= ·) (funext fun next => ?_)
    rcases next with ⟨_ | u, w⟩
    · rfl
    · simp only [ih]

theorem readEntries_eq (read : Text → Reading (α × Text)) (n : Nat) (es : List (Text × α))
    (more : Bool) (t : Text) :
    readEntries read n es more t = membersWith (fun _ => read) n es more t := by
  induction n generalizing es more t with
  | zero => rw [readEntries, membersWith]
  | succ n ih =>
    rw [readEntries, membersWith]
    refine congrArg (nextKey more t >>= ·) (funext fun next => ?_)
    rcases next with ⟨_ | u, w⟩
    · rfl
    · simp only [ih]

variable {read} {P : α → Prop} {n : Nat} {more : Bool} {t rest : Text}

/-- What holds of every value that the reader gives holds of the items. -/
theorem of_mem_itemsWith (hread : ∀ n t v rest, read n t = .ok (v, rest) → P v) {vs : List α}
    (h : itemsWith read n more t = .ok (vs, rest)) : ∀ v ∈ vs, P v := by
  induction n generalizing more t rest vs with
  | zero => cases h
  | succ n ih =>
    rw [itemsWith] at h
    obtain ⟨⟨item, u⟩, -, h⟩ := bind_eq_ok_iff.mp h
    cases item with
    | none =>
      obtain ⟨_, -, h⟩ := bind_eq_ok_iff.mp h
      obtain ⟨rfl, -⟩ := Prod.mk.inj (Except.ok.inj h)
      exact fun v hv => nomatch hv
    | some w =>
      obtain ⟨⟨v, x⟩, hv, h⟩ := bind_eq_ok_iff.mp h
      obtain ⟨⟨vs', y⟩, hvs, h⟩ := bind_eq_ok_iff.mp h
      obtain ⟨rfl, -⟩ := Prod.mk.inj (Except.ok.inj h)
      exact List.forall_mem_cons.mpr ⟨hread _ _ _ _ hv, ih hvs⟩

/-- The members are in increasing order of their keys, and what holds of every value that the reader
gives holds of theirs. -/
theorem of_mem_membersWith (hread : ∀ n t v rest, read n t = .ok (v, rest) → P v)
    {ms es : List (Text × α)} (h : membersWith read n ms more t = .ok (es, rest))
    (hms : Text.Increasing ms) (hvalues : ∀ m ∈ ms, P m.2) :
    Text.Increasing es ∧ ∀ m ∈ es, P m.2 := by
  induction n generalizing ms more t with
  | zero => cases h
  | succ n ih =>
    rw [membersWith] at h
    obtain ⟨⟨key, u⟩, -, h⟩ := bind_eq_ok_iff.mp h
    cases key with
    | none =>
      obtain ⟨_, -, h⟩ := bind_eq_ok_iff.mp h
      obtain ⟨rfl, -⟩ := Prod.mk.inj (Except.ok.inj h)
      exact ⟨hms, hvalues⟩
    | some k =>
      obtain ⟨_, -, h⟩ := bind_eq_ok_iff.mp h
      obtain ⟨⟨v, x⟩, hv, h⟩ := bind_eq_ok_iff.mp h
      refine ih h (hms.bind k v) fun m hm => ?_
      rcases Text.mem_of_mem_bind hm with rfl | hm
      · exact hread _ _ _ _ hv
      · exact hvalues m hm

end

/-! ## The texts of arrays and objects -/

/-- The items of an array between its brackets. -/
def itemsFrom (more : Bool) (level : Nat) : List Json → Text
  | [] => []
  | v :: vs => lead more level ++ (render level v ++ itemsFrom true level vs)

/-- The break in front of a closing bracket. -/
def closing {α : Type} (level : Nat) (l : List α) : Text := if l.isEmpty then [] else newline level

section

variable {c : Char} {rest : Text}

theorem renderItems_eq (level : Nat) (vs : List Json) :
    renderItems level vs = itemsFrom true level vs := by
  induction vs with
  | nil => rw [renderItems, itemsFrom]
  | cons v vs ih =>
    rw [renderItems, itemsFrom, ih]
    simp [lead]

theorem render_array (level : Nat) (vs : List Json) :
    render level (.array vs) =
      '[' :: (itemsFrom false (level + 1) vs ++ (closing level vs ++ [']'])) := by
  cases vs with
  | nil => rfl
  | cons v vs =>
    rw [render, itemsFrom, renderItems_eq]
    simp [lead, closing]

theorem render_members (level : Nat) (ms : List (Text × Json)) :
    render level (.object ms) =
      '\x7b' :: (membersFrom false (level + 1) ms ++ (closing level ms ++ ['\x7d'])) := by
  cases ms with
  | nil => rfl
  | cons m ms =>
    obtain ⟨k, v⟩ := m
    rw [render, membersFrom, renderMembers_eq]
    simp [lead, closing]

theorem render_array_append (level : Nat) (vs : List Json) (rest : Text) :
    render level (.array vs) ++ rest =
      '[' :: (itemsFrom false (level + 1) vs ++ (closing level vs ++ ']' :: rest)) := by
  rw [render_array]
  simp

theorem render_members_append (level : Nat) (ms : List (Text × Json)) (rest : Text) :
    render level (.object ms) ++ rest =
      '\x7b' :: (membersFrom false (level + 1) ms ++ (closing level ms ++ '\x7d' :: rest)) := by
  rw [render_members]
  simp

/-- A written value begins with a character that is neither blank nor a closing bracket. -/
theorem render_head (level : Nat) (v : Json) :
    ∃ c t, render level v = c :: t ∧ isSpace c = false ∧ c ≠ ']' := by
  cases v with
  | null => exact ⟨_, _, rfl, rfl, by decide⟩
  | bool b => cases b <;> exact ⟨_, _, rfl, rfl, by decide⟩
  | number n =>
    rw [render, n.render_eq]
    cases n.isNegative with
    | true => exact ⟨_, _, rfl, rfl, by decide⟩
    | false =>
      obtain ⟨c, t, h, hc⟩ := n.numeral_unsigned.head
      refine ⟨c, t, h, ?_, ?_⟩
      · by_contra hspace
        simp only [isSpace, Bool.not_eq_false, Bool.or_eq_true, beq_iff_eq] at hspace
        rcases hspace with ((rfl | rfl) | rfl) | rfl <;> cases hc
      · rintro rfl
        cases hc
  | text t => exact ⟨_, _, rfl, rfl, by decide⟩
  | array vs => exact ⟨_, _, render_array level vs, rfl, by decide⟩
  | object ms => exact ⟨_, _, render_members level ms, rfl, by decide⟩

theorem skipSpace_render (level : Nat) (v : Json) (rest : Text) :
    skipSpace (render level v ++ rest) = render level v ++ rest := by
  obtain ⟨c, t, h, hc, -⟩ := render_head level v
  rw [h, List.cons_append, skipSpace_of_not_isSpace hc]

theorem nextItem_lead (more : Bool) (level : Nat) (v : Json) (rest : Text) :
    nextItem more (lead more level ++ (render level v ++ rest)) =
      .ok (some (render level v ++ rest), render level v ++ rest) := by
  have hskip : skipSpace (newline level ++ (render level v ++ rest)) = render level v ++ rest := by
    rw [skipSpace_newline, skipSpace_render]
  obtain ⟨c, t, h, -, hc⟩ := render_head level v
  rw [h, List.cons_append] at hskip ⊢
  cases more with
  | false =>
    rw [nextItem, lead, if_neg Bool.false_ne_true, List.nil_append, hskip]
    split
    · contradiction
    · rename_i heq
      exact absurd (List.cons.inj heq).1 hc
    · rename_i heq
      obtain ⟨rfl, rfl⟩ := List.cons.inj heq
      rfl
  | true =>
    have hcomma : skipSpace (lead true level ++ c :: (t ++ rest)) =
        ',' :: (newline level ++ c :: (t ++ rest)) := skipSpace_of_not_isSpace rfl _
    rw [nextItem, hcomma]
    split
    · contradiction
    · rename_i heq
      exact absurd (List.cons.inj heq).1 (by decide)
    · rename_i heq
      obtain ⟨rfl, rfl⟩ := List.cons.inj heq
      rw [if_neg (by decide), if_neg (by decide), hskip]
      split
      · contradiction
      · rename_i heq
        exact absurd (List.cons.inj heq).1 hc
      · rfl

theorem nextItem_close {close : Text} (h : skipSpace close = ']' :: rest) (more : Bool) :
    nextItem more close = .ok (none, ']' :: rest) := by
  rw [nextItem, h]
  rfl

theorem readClose_square (rest : Text) : readClose ']' (']' :: rest) = .ok ((), rest) := by
  rw [readClose, skipSpace_of_not_isSpace rfl]
  rfl

theorem skipSpace_closing {α : Type} (hc : isSpace c = false) (level : Nat) (l : List α)
    (rest : Text) : skipSpace (closing level l ++ c :: rest) = c :: rest := by
  unfold closing
  split
  · exact skipSpace_of_not_isSpace hc rest
  · rw [skipSpace_newline, skipSpace_of_not_isSpace hc]

/-- A number ends in front of blanks and of brackets. -/
theorem stops_of_skipSpace {close : Text} (h : skipSpace close = c :: rest)
    (hc : continuesNumber c = false) : Stops close := by
  cases close with
  | nil => cases h
  | cons d close =>
    refine stops_cons ?_ close
    by_cases hd : isSpace d = true
    · simp only [isSpace, Bool.or_eq_true, beq_iff_eq] at hd
      rcases hd with ((rfl | rfl) | rfl) | rfl <;> rfl
    · rw [skipSpace_of_not_isSpace (Bool.not_eq_true _ ▸ hd)] at h
      exact (List.cons.inj h).1 ▸ hc

theorem stops_lead (level : Nat) (t : Text) : Stops (lead true level ++ t) := stops_cons rfl _

end

theorem length_lead_pos (more : Bool) (level : Nat) : 0 < (lead more level).length := by
  simp [lead, newline]

/-! ## Reading back -/

/-- A member whose value is what its own value is turned into. -/
def inMember {α β : Type} (f : α → Reading β) (m : Text × α) : Reading (Text × β) :=
  (f m.2).map fun v => (m.1, v)

/-- The reader reads the written value as the given result, whatever stands behind it. -/
def ReadsBack {α : Type} (read : Nat → Text → Reading (α × Text)) (level : Nat) (v : Json)
    (r : Reading α) : Prop :=
  ∀ n t rest, skipSpace t = render level v ++ rest → (render level v).length < n → Stops rest →
    read n t = r.map fun a => (a, rest)

section

variable {α β : Type} {read : Nat → Text → Reading (α × Text)} {level : Nat} {close rest : Text}

/-- A reader that takes its fuel apart only has to read the value with some fuel left. -/
theorem ReadsBack.of_succ {v : Json} {r : Reading α}
    (h : ∀ n t rest, skipSpace t = render level v ++ rest → (render level v).length ≤ n →
      Stops rest → read (n + 1) t = r.map fun a => (a, rest)) : ReadsBack read level v r := by
  intro n t rest ht hn hrest
  cases n with
  | zero => cases hn
  | succ n => exact h n t rest ht (Nat.le_of_lt_succ hn) hrest

theorem stops_items (hclose : Stops close) (level : Nat) (vs : List Json) :
    Stops (itemsFrom true level vs ++ close) := by
  cases vs with
  | nil => exact hclose
  | cons v vs => exact List.append_assoc .. ▸ stops_lead level _

theorem stops_members (hclose : Stops close) (level : Nat) (ms : List (Text × Json)) :
    Stops (membersFrom true level ms ++ close) := by
  cases ms with
  | nil => exact hclose
  | cons m ms => exact List.append_assoc .. ▸ stops_lead level _

theorem itemsWith_items {write : β → Json} {back : β → Reading α}
    (hclose : skipSpace close = ']' :: rest) (bs : List β)
    (hread : ∀ b ∈ bs, ReadsBack read level (write b) (back b)) (more : Bool) (n : Nat)
    (hn : (itemsFrom more level (bs.map write)).length < n) :
    itemsWith read n more (itemsFrom more level (bs.map write) ++ close) =
      (bs.mapM back).map fun as => (as, rest) := by
  induction bs generalizing more n with
  | nil =>
    cases n with
    | zero => cases hn
    | succ n =>
      simp only [List.map_nil, itemsFrom, List.nil_append, itemsWith, nextItem_close hclose, bind,
        Except.bind, readClose_square]
      rfl
  | cons b bs ih =>
    cases n with
    | zero => cases hn
    | succ n =>
      obtain ⟨hb, hbs⟩ := List.forall_mem_cons.mp hread
      have hlead := length_lead_pos more level
      simp only [List.map_cons, itemsFrom, List.length_append] at hn
      have hvalue := hb n _ _ (skipSpace_render level (write b) _) (by omega)
        (stops_items (stops_of_skipSpace hclose rfl) level (bs.map write))
      have hrest := ih hbs true n (by omega)
      simp only [List.map_cons, itemsFrom, List.append_assoc, itemsWith, nextItem_lead, bind,
        Except.bind, hvalue, List.mapM_cons]
      cases back b with
      | error e => rfl
      | ok a =>
        simp only [Except.map, hrest]
        cases bs.mapM back <;> rfl

/-- Members are read back by binding their values in turn, up to the first that has a fault. -/
theorem membersWith_members {back : Json → Reading α}
    (hclose : skipSpace close = '\x7d' :: rest) (ms : List (Text × Json)) (es : List (Text × α))
    (hread : ∀ m ∈ ms, ReadsBack read level m.2 (back m.2)) (more : Bool) (n : Nat)
    (hn : (membersFrom more level ms).length < n) :
    membersWith read n es more (membersFrom more level ms ++ close) =
      (ms.mapM (inMember back)).map fun as =>
        (as.foldl (fun es a => Text.bind a.1 a.2 es) es, rest) := by
  induction ms generalizing es more n with
  | nil =>
    cases n with
    | zero => cases hn
    | succ n =>
      simp only [membersFrom, List.nil_append, membersWith, nextKey_close hclose, bind,
        Except.bind, readClose_self]
      rfl
  | cons m ms ih =>
    cases n with
    | zero => cases hn
    | succ n =>
      obtain ⟨hm, hms⟩ := List.forall_mem_cons.mp hread
      have hlead := length_lead_pos more level
      simp only [membersFrom, List.length_append, List.length_cons] at hn
      have hskip : skipSpace (' ' :: (render level m.2 ++ (membersFrom true level ms ++ close))) =
          render level m.2 ++ (membersFrom true level ms ++ close) := by
        rw [skipSpace_of_isSpace rfl, skipSpace_render]
      have hvalue := hm n _ _ hskip (by omega)
        (stops_members (stops_of_skipSpace hclose rfl) level ms)
      simp only [membersFrom, List.append_assoc, List.cons_append, membersWith, nextKey_lead, bind,
        Except.bind, readColon_self, hvalue, List.mapM_cons, inMember]
      cases back m.2 with
      | error e => rfl
      | ok a =>
        have hrest := ih (Text.bind m.1 a es) hms true n (by omega)
        simp only [Except.map, hrest]
        cases ms.mapM (inMember back) <;> rfl

end

end DocCoverage.Json
