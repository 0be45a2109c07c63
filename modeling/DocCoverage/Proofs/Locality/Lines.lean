import DocCoverage.Proofs.Scan.Regular

/-!
# Looking ahead stops at line ends and comments

No rule looks beyond the first line feed behind the character it is asked about, and none but the
rule of class attributes looks beyond the first number sign. So whether a span opens or ends at a
character does not depend on what stands behind the next line feed, no span opens at a line feed,
and no opening or closing delimiter reaches over one.
-/
namespace DocCoverage

/-- The answer does not depend on what stands behind the character. -/
def LocalTo (d : Char) {α : Type} (f : Text → α) : Prop :=
  ∀ u t t' : Text, f (u ++ d :: t) = f (u ++ d :: t')

/-- A line feed or the start of a comment. -/
def EndsCode (d : Char) : Prop := d = '\n' ∨ d = '#'

theorem EndsCode.ne_space {d : Char} (h : EndsCode d) : (d == ' ') = false := by
  rcases h with rfl | rfl <;> rfl

theorem EndsCode.notMem {d : Char} (h : EndsCode d) {w : Text}
    (hw : (w.contains '\n' || w.contains '#') = false) : d ∉ w := by
  simp only [Bool.or_eq_false_iff, List.contains_eq_mem, decide_eq_false_iff_not] at hw
  rcases h with rfl | rfl
  · exact hw.1
  · exact hw.2

namespace Text

theorem dropWhile_append_cons {p : Char → Bool} {d : Char} (hp : p d = false) (u t : Text) :
    (u ++ d :: t).dropWhile p = u.dropWhile p ++ d :: t := by
  induction u with
  | nil => simp [hp]
  | cons c u ih =>
    by_cases hc : p c = true
    · simp [hc, ih]
    · simp [hc]

theorem takeWhile_append_cons {p : Char → Bool} {d : Char} (hp : p d = false) (u t : Text) :
    (u ++ d :: t).takeWhile p = u.takeWhile p := by
  induction u with
  | nil => simp [hp]
  | cons c u ih =>
    by_cases hc : p c = true
    · simp [hc, ih]
    · simp [hc]

/-- A word is found before a character that it does not have, or not at all. -/
theorem dropPrefix?_append_cons {w : Text} {d : Char} (hw : d ∉ w) (u t : Text) :
    dropPrefix? w (u ++ d :: t) = (dropPrefix? w u).map (· ++ d :: t) := by
  induction w generalizing u with
  | nil => simp [dropPrefix?]
  | cons c w ih =>
    simp only [List.mem_cons, not_or] at hw
    cases u with
    | nil =>
      have hc : (c == d) = false := by simpa using Ne.symm hw.1
      simp [dropPrefix?, hc]
    | cons e u =>
      by_cases hce : c = e
      · simp [dropPrefix?, hce, ih hw.2]
      · simp [dropPrefix?, hce]

theorem dropPrefix_append_cons {w : Text} {d : Char} (hw : d ∉ w) (u t : Text) :
    dropPrefix w (u ++ d :: t) = dropPrefix w u ++ d :: t := by
  simp only [dropPrefix, dropPrefix?_append_cons hw]
  cases dropPrefix? w u <;> rfl

theorem startsWith_localTo {w : Text} {d : Char} (hw : d ∉ w) : LocalTo d (startsWith · w) := by
  intro u t t'
  simp only [startsWith, dropPrefix?_append_cons hw, Option.isSome_map]

end Text

namespace Rule

variable {d : Char}

theorem starts_localTo (p : Char → Bool) : LocalTo d (starts p) := by
  intro u t t'
  cases u <;> rfl

theorem word_localTo {w : Text} (hw : d ∉ w) : LocalTo d (word w) :=
  Text.startsWith_localTo hw

section

variable (hd : EndsCode d)
include hd

theorem starts_skipSpaces_localTo (p : Char → Bool) (u t t' : Text) :
    starts p (skipSpaces (u ++ d :: t)) = starts p (skipSpaces (u ++ d :: t')) := by
  simp only [skipSpaces, Text.dropWhile_append_cons (p := (· == ' ')) hd.ne_space]
  exact starts_localTo p _ t t'

theorem operand_localTo (direct : List Char) {keyword : Text} (hk : d ∉ keyword) :
    LocalTo d (operand direct keyword) := by
  intro u t t'
  simp only [operand, Text.dropPrefix?_append_cons hk]
  cases Text.dropPrefix? keyword u with
  | none => rfl
  | some rest =>
    cases rest with
    | nil => simp only [Option.map_some, List.nil_append, hd.ne_space, Bool.false_eq_true, if_false]
    | cons c rest =>
      simp only [Option.map_some, List.cons_append]
      rw [starts_skipSpaces_localTo hd _ rest t t']

theorem markEnds_localTo : LocalTo d markEnds := by
  intro u t t'
  simp only [markEnds, skipSpaces, Text.dropWhile_append_cons (p := (· == ' ')) hd.ne_space]
  cases u.dropWhile (· == ' ') <;> rfl

theorem marker_localTo : LocalTo d marker := by
  intro u t t'
  simp only [marker, Text.dropPrefix?_append_cons (w := "property") (hd.notMem rfl),
    Text.dropPrefix?_append_cons (w := "classmethod") (hd.notMem rfl)]
  cases Text.dropPrefix? "property" u with
  | some rest => exact markEnds_localTo hd rest t t'
  | none =>
    cases Text.dropPrefix? "classmethod" u with
    | some rest => exact markEnds_localTo hd rest t t'
    | none => rfl

theorem decoratorCall_localTo : LocalTo d decoratorCall := by
  intro u t t'
  have hname : (Text.isWord d || d == '.') = false := by rcases hd with rfl | rfl <;> decide
  cases u with
  | nil => rcases hd with rfl | rfl <;> rfl
  | cons c u =>
    simp only [List.cons_append, decoratorCall]
    rw [Text.dropWhile_append_cons hname, Text.dropWhile_append_cons hname,
      starts_skipSpaces_localTo hd _ _ t t']

end

theorem assigns_localTo (hd : EndsCode d) : LocalTo d assigns := by
  intro u t t'
  have hne : d ≠ '=' := by rcases hd with rfl | rfl <;> decide
  match u with
  | [] => simp [assigns, hne]
  | [c] =>
    by_cases hc : c = '='
    · simp [assigns, hc, hne]
    · simp [assigns, hc]
  | c :: e :: u =>
    by_cases hc : c = '='
    · by_cases he : e = '='
      · simp [assigns, hc, he]
      · simp [assigns, hc, he]
    · simp [assigns, hc]

theorem assignment_lineLocal : LocalTo '\n' assignment := by
  intro u t t'
  simp only [assignment, skipSpaces]
  simp only [Text.dropWhile_append_cons (p := Text.isWord) (d := '\n') (by decide),
    Text.dropWhile_append_cons (p := (· == ' ')) (d := '\n') (by decide)]
  cases h : (u.dropWhile Text.isWord).dropWhile (· == ' ') with
  | nil => exact assigns_localTo (Or.inl rfl) [] t t'
  | cons c rest =>
    by_cases hc : c = ':'
    · subst hc
      simp only [List.cons_append]
      rw [Text.dropWhile_append_cons (by decide), Text.dropWhile_append_cons (by decide)]
      exact assigns_localTo (Or.inl rfl) _ t t'
    · simp only [List.cons_append]
      split
      · simp_all
      · split
        · simp_all
        · exact assigns_localTo (Or.inl rfl) (c :: rest) t t'

/-- Only class attributes look into comments. -/
theorem standard_ahead_localTo (hd : EndsCode d) {k : SpanKind}
    (hk : k = .classAttribute → d = '\n') : LocalTo d (standard k).ahead := by
  cases k with
  | bracket | straightBracket | curvedBracket | comment | file => exact fun _ _ _ => rfl
  | formattedSingleString | formattedDoubleString | singleString | doubleString =>
    exact starts_localTo _
  | singleDocstring | doubleDocstring => exact word_localTo (hd.notMem rfl)
  | function | method | classMethod | classDef | selfAttribute =>
    exact word_localTo (hd.notMem rfl)
  | decorator => exact marker_localTo hd
  | decoratorArgument => exact decoratorCall_localTo hd
  | classAttribute =>
    obtain rfl := hk rfl
    exact assignment_lineLocal
  | returnStmt | raiseStmt | yieldStmt => exact operand_localTo hd _ (hd.notMem rfl)

theorem standard_opens_localTo (hd : EndsCode d) {k : SpanKind}
    (hk : k = .classAttribute → d = '\n') (back : Text) (c : Char) (u t t' : Text) :
    (standard k).opens ⟨back, c :: (u ++ d :: t)⟩ =
      (standard k).opens ⟨back, c :: (u ++ d :: t')⟩ := by
  simp only [opens, Cursor.before, Cursor.atLineHead]
  rw [standard_ahead_localTo hd hk u t t']

theorem standard_opens_lineFeed (k : SpanKind) (back t : Text) :
    (standard k).opens ⟨back, '\n' :: t⟩ = false := by
  have hc : (standard k).current '\n' = false := by cases k <;> decide
  simp [opens, hc]

/-- What opens inside a span at a character is settled by the line of that character. -/
theorem dispatch_line (parent : Rule) (back : Text) (c : Char) (u t t' : Text) :
    RuleTable.dispatch standard parent ⟨back, c :: (u ++ '\n' :: t)⟩ =
      RuleTable.dispatch standard parent ⟨back, c :: (u ++ '\n' :: t')⟩ := by
  unfold RuleTable.dispatch
  simp only [standard_opens_localTo (Or.inl rfl) (fun _ => rfl) back c u t t']

theorem dispatch_lineFeed (parent : Rule) (back t : Text) :
    RuleTable.dispatch standard parent ⟨back, '\n' :: t⟩ = .none := by
  simp [RuleTable.dispatch, standard_opens_lineFeed]

theorem leadingSpaces_localTo (hd : EndsCode d) : LocalTo d leadingSpaces := by
  intro u t t'
  simp only [leadingSpaces, Text.takeWhile_append_cons (p := (· == ' ')) hd.ne_space]

theorem dedents_localTo (hd : EndsCode d) (indent : Nat) (exempt : List Char) (c : Char)
    (u t t' : Text) :
    dedents indent exempt (c :: (u ++ d :: t)) = dedents indent exempt (c :: (u ++ d :: t')) := by
  by_cases hc : c = '\n'
  · subst hc
    simp only [dedents, leadingSpaces_localTo hd u t t',
      Text.dropWhile_append_cons (p := (· == ' ')) hd.ne_space]
    cases u.dropWhile (· == ' ') <;> rfl
  · simp [dedents, hc]

theorem closes_localTo (hd : EndsCode d) (k : SpanKind) (indent : Nat) (back : Text) (c : Char)
    (u t t' : Text) :
    (standard k).ending.closes indent ⟨back, c :: (u ++ d :: t)⟩ =
      (standard k).ending.closes indent ⟨back, c :: (u ++ d :: t')⟩ := by
  have hword : ∀ w : Text, d ∉ w →
      word w (c :: (u ++ d :: t)) = word w (c :: (u ++ d :: t')) :=
    fun w hw => word_localTo hw (c :: u) t t'
  cases k with
  | singleDocstring | doubleDocstring =>
    simp only [standard, tripleQuoted, End.closes, Cursor.escaped]
    rw [hword _ (hd.notMem rfl)]
  | function | method | classMethod | classDef | decorator => exact dedents_localTo hd _ _ c u t t'
  | _ => rfl

theorem length_le_of_word {w u t : Text} (hw : d ∉ w) (h : word w (u ++ d :: t) = true) :
    Text.byteLength w ≤ Text.byteLength u := by
  simp only [word, Text.startsWith, Text.dropPrefix?_append_cons hw, Option.isSome_map,
    Option.isSome_iff_exists, Text.dropPrefix?_eq_some_iff] at h
  obtain ⟨rest, rfl⟩ := h
  simp

theorem pos_of_starts {p : Char → Bool} {u t : Text} (hp : p d = false)
    (h : starts p (u ++ d :: t) = true) : 1 ≤ Text.byteLength u := by
  cases u with
  | nil => simp [starts, hp] at h
  | cons c u =>
    have := c.utf8Size_pos
    simp only [Text.byteLength_cons]
    omega

/-- An opening delimiter does not reach over a line feed or into a comment. -/
theorem opener_le_of_opens (hd : EndsCode d) {k : SpanKind} {back u t : Text} {c : Char}
    (h : (standard k).opens ⟨back, c :: (u ++ d :: t)⟩ = true) (t' : Text) :
    (standard k).opener t' ≤ Text.byteLength (c :: u) := by
  have hc := c.utf8Size_pos
  cases k with
  | singleDocstring | doubleDocstring =>
    simp only [opens, Bool.and_eq_true] at h
    have hw := length_le_of_word (w := [_, _]) (hd.notMem rfl) h.1.2
    simp only [standard, tripleQuoted, Text.byteLength_cons] at *
    have hq : ('"').utf8Size = 1 := rfl
    have hq' : ('\'').utf8Size = 1 := rfl
    omega
  | file => exact Nat.zero_le _
  | _ => exact Nat.le_trans hc (Nat.le_add_right _ _)

/-- A closing delimiter does not reach over a line feed or into a comment. -/
theorem trailing_le_of_closes (hd : EndsCode d) {k : SpanKind} {indent : Nat} {back u t : Text}
    (h : (standard k).ending.closes indent ⟨back, u ++ d :: t⟩ = true) :
    (standard k).trailing ≤ Text.byteLength u := by
  have hplain : ∀ q : Char, (q == '\n' || q == '#') = false → only q d = false := by
    intro q hq
    simp only [Bool.or_eq_false_iff, beq_eq_false_iff_ne] at hq
    rcases hd with rfl | rfl
    · exact beq_eq_false_iff_ne.mpr hq.1.symm
    · exact beq_eq_false_iff_ne.mpr hq.2.symm
  cases k with
  | bracket | straightBracket | curvedBracket | formattedSingleString | formattedDoubleString
  | singleString | doubleString => exact pos_of_starts (hplain _ rfl) (accepts_of_closes h)
  | singleDocstring | doubleDocstring =>
    have hw : word [_, _, _] (u ++ d :: t) = true := accepts_of_closes h
    exact length_le_of_word (hd.notMem rfl) hw
  | _ => exact Nat.zero_le _

end Rule

end DocCoverage
