import DocCoverage.Proofs.Json.Strings

/-!
# Reading JSON objects back

The members of an object are written one on a line, each behind a comma but the first. A reader
that reads every value back reads the whole object back: as a map it binds the members in turn, and
as a record it collects its fields.
-/
namespace DocCoverage.Json

/-- What stands in front of a member: a comma, unless it is the first, and a new line. -/
def lead (more : Bool) (level : Nat) : Text := (if more then [','] else []) ++ newline level

/-- The members of an object between its brackets. -/
def membersFrom (more : Bool) (level : Nat) : List (Text × Json) → Text
  | [] => []
  | (k, v) :: ms =>
    lead more level ++ (quote k ++ (':' :: ' ' :: (render level v ++ membersFrom true level ms)))

theorem renderMembers_eq (level : Nat) (ms : List (Text × Json)) :
    renderMembers level ms = membersFrom true level ms := by
  induction ms with
  | nil => rw [renderMembers, membersFrom]
  | cons m ms ih =>
    obtain ⟨k, v⟩ := m
    rw [renderMembers, membersFrom, ih]
    simp [lead]

/-- An object is its members between brackets, the last of which stands behind blanks. -/
theorem render_object (level : Nat) (ms : List (Text × Json)) (rest : Text) : ∃ close,
    render level (.object ms) ++ rest = '\x7b' :: (membersFrom false (level + 1) ms ++ close) ∧
      skipSpace close = '\x7d' :: rest := by
  cases ms with
  | nil => exact ⟨'\x7d' :: rest, by rw [render]; rfl, skipSpace_of_not_isSpace rfl _⟩
  | cons m ms =>
    obtain ⟨k, v⟩ := m
    refine ⟨newline level ++ '\x7d' :: rest, ?_, ?_⟩
    · rw [render, membersFrom, renderMembers_eq]
      simp [lead]
    · rw [skipSpace_newline, skipSpace_of_not_isSpace rfl]

theorem length_le_membersFrom (more : Bool) (level : Nat) (ms : List (Text × Json)) :
    ms.length ≤ (membersFrom more level ms).length := by
  induction ms generalizing more with
  | nil => exact Nat.le_refl _
  | cons m ms ih =>
    obtain ⟨k, v⟩ := m
    have hrest := ih true
    simp only [membersFrom, List.length_append, List.length_cons]
    omega

theorem nextKey_lead (more : Bool) (level : Nat) (k rest : Text) :
    nextKey more (lead more level ++ (quote k ++ rest)) = .ok (some k, rest) := by
  have hkey : skipSpace (newline level ++ (quote k ++ rest)) =
      '"' :: (k.flatMap escape ++ '"' :: rest) := by
    rw [skipSpace_newline, quote_append, skipSpace_of_not_isSpace rfl]
  have hstring : (readString (k.flatMap escape ++ '"' :: rest) >>= fun r =>
      .ok (some r.1, r.2) : Reading (Option Text × Text)) = .ok (some k, rest) := by
    rw [readString_quoted]
    rfl
  cases more with
  | false =>
    rw [nextKey, lead]
    simp only [Bool.false_eq_true, if_false, List.nil_append, hkey]
    exact hstring
  | true =>
    have hcomma : skipSpace (lead true level ++ (quote k ++ rest)) =
        ',' :: (newline level ++ (quote k ++ rest)) := skipSpace_of_not_isSpace rfl _
    rw [nextKey, hcomma]
    split
    · contradiction
    · rename_i h
      exact absurd (List.cons.inj h).1 (by decide)
    · rename_i h
      obtain ⟨rfl, rfl⟩ := List.cons.inj h
      rw [if_neg (by decide), if_pos rfl, hkey]
      exact hstring

theorem nextKey_close {close rest : Text} (h : skipSpace close = '\x7d' :: rest) (more : Bool) :
    nextKey more close = .ok (none, '\x7d' :: rest) := by
  rw [nextKey, h]
  rfl

theorem readClose_self (rest : Text) : readClose '\x7d' ('\x7d' :: rest) = .ok ((), rest) := by
  rw [readClose, skipSpace_of_not_isSpace rfl]
  rfl

theorem readColon_self (rest : Text) : readColon (':' :: rest) = .ok ((), rest) := by
  rw [readColon, skipSpace_of_not_isSpace rfl]
  rfl

theorem readTextValue_quote (t rest : Text) :
    readTextValue (' ' :: (quote t ++ rest)) = .ok (t, rest) := by
  rw [readTextValue, skipSpace_of_isSpace rfl, skipSpace_quote, quote_append]
  exact readString_quoted t rest

theorem readBoolValue_render (level : Nat) (b : Bool) (rest : Text) :
    readBoolValue (' ' :: (render level (.bool b) ++ rest)) = .ok (b, rest) := by
  cases b <;> rfl

section

variable {α : Type} {write : α → Json} {level : Nat} {close rest : Text}

/-- A map is read back by binding its members in turn. -/
theorem readEntries_members {read : Text → Reading (α × Text)}
    (hread : ∀ v t, read (' ' :: (render level (write v) ++ t)) = .ok (v, t))
    (hclose : skipSpace close = '\x7d' :: rest) (ms es : List (Text × α)) (more : Bool) (n : Nat)
    (hn : ms.length < n) :
    readEntries read n es more
        (membersFrom more level (ms.map fun m => (m.1, write m.2)) ++ close) =
      .ok (ms.foldl (fun es m => Text.bind m.1 m.2 es) es, rest) := by
  induction ms generalizing es more n with
  | nil =>
    cases n with
    | zero => cases hn
    | succ n =>
      simp only [List.map_nil, membersFrom, List.nil_append, readEntries, nextKey_close hclose,
        bind, Except.bind, readClose_self]
      rfl
  | cons m ms ih =>
    cases n with
    | zero => cases hn
    | succ n =>
      have hrest := ih (Text.bind m.1 m.2 es) true n (Nat.lt_of_succ_lt_succ hn)
      simp only [List.map_cons, membersFrom, List.append_assoc, List.cons_append, readEntries,
        nextKey_lead, bind, Except.bind, readColon_self, hread, hrest, List.foldl_cons]

/-- A record is read back by collecting its fields, the last first. -/
theorem Shape.readFields_members (s : Shape α) (hclose : skipSpace close = '\x7d' :: rest)
    (ms found : List (Text × α)) (more : Bool) (n : Nat) (hn : ms.length < n)
    (hread : ∀ m ∈ ms, ∀ t, s.read m.1 (' ' :: (render level (write m.2) ++ t)) = .ok (m.2, t))
    (hfields : ∀ m ∈ ms, s.fields.contains m.1 = true)
    (hnew : ms.Pairwise fun a b => b.1 ≠ a.1) (hold : ∀ m ∈ ms, found.lookup m.1 = none) :
    s.readFields n found more
        (membersFrom more level (ms.map fun m => (m.1, write m.2)) ++ close) =
      .ok (ms.reverse ++ found, rest) := by
  induction ms generalizing found more n with
  | nil =>
    cases n with
    | zero => cases hn
    | succ n =>
      simp only [List.map_nil, membersFrom, List.nil_append, Shape.readFields,
        nextKey_close hclose, bind, Except.bind, readClose_self]
      rfl
  | cons m ms ih =>
    cases n with
    | zero => cases hn
    | succ n =>
      obtain ⟨hm, hms⟩ := List.pairwise_cons.mp hnew
      have hlater : ∀ a ∈ ms, (((m.1, m.2) :: found).lookup a.1) = none := fun a ha => by
        have hne : (a.1 == m.1) = false := by simpa using hm a ha
        rw [List.lookup_cons, hne]
        exact hold a (List.mem_cons_of_mem _ ha)
      have hrest := ih ((m.1, m.2) :: found) true n (Nat.lt_of_succ_lt_succ hn)
        (fun a ha => hread a (List.mem_cons_of_mem _ ha))
        (fun a ha => hfields a (List.mem_cons_of_mem _ ha)) hms hlater
      simp only [List.map_cons, membersFrom, List.append_assoc, List.cons_append,
        Shape.readFields, nextKey_lead, bind, Except.bind, hfields m List.mem_cons_self, if_true,
        hold m List.mem_cons_self, Option.isSome_none, Bool.false_eq_true, if_false,
        readColon_self, hread m List.mem_cons_self, hrest, List.reverse_cons]
      simp

end

end DocCoverage.Json
