import DocCoverage.Json.Shape
import Mathlib.Tactic.IntervalCases
import Mathlib.Tactic.SplitIfs

/-!
# Reading JSON strings back

A character is read back from its escaped form whatever follows, so a quoted text is read back as
a whole, as a value and as a key.
-/
namespace DocCoverage.Json

theorem hexNumber?_control {n : Nat} (h : n < 0x20) :
    Text.hexNumber? 0 ['0', '0', hexDigit (n / 16), hexDigit (n % 16)] = some n := by
  interval_cases n <;> rfl

/-- A control character is read back from its code. -/
theorem readCode_control {c : Char} (h : c.toNat < 0x20) (t : Text) :
    readCode ('0' :: '0' :: hexDigit (c.toNat / 16) :: hexDigit (c.toNat % 16) :: t) =
      .ok (c, t) := by
  have hlen : ¬Text.byteLength
      ('0' :: '0' :: hexDigit (c.toNat / 16) :: hexDigit (c.toNat % 16) :: t) < 4 := by
    have h1 := (hexDigit (c.toNat / 16)).utf8Size_pos
    have h2 := (hexDigit (c.toNat % 16)).utf8Size_pos
    have h0 : '0'.utf8Size = 1 := rfl
    simp only [Text.byteLength]
    omega
  have hlow : isLowSurrogate c.toNat = false := by
    simp only [isLowSurrogate, Bool.and_eq_false_iff, decide_eq_false_iff_not]
    omega
  have hhigh : isHighSurrogate c.toNat = false := by
    simp only [isHighSurrogate, Bool.and_eq_false_iff, decide_eq_false_iff_not]
    omega
  have hhex : readHex4 ('0' :: '0' :: hexDigit (c.toNat / 16) :: hexDigit (c.toNat % 16) :: t) =
      .ok (c.toNat, t) := by
    rw [readHex4, if_neg hlen]
    simp only [List.take_succ_cons, List.take_zero, List.drop_succ_cons, List.drop_zero,
      hexNumber?_control h]
  rw [readCode, hhex]
  simp only [bind, Except.bind, hlow, hhigh, Bool.false_eq_true, if_false, Bool.not_false, if_true]
  rw [Char.ofNat_toNat]
  rfl

theorem readChars_shortEscape {n : Nat} {s t rest : Text} {c d : Char}
    (hd : shortEscape? d = some c) (h : readChars n t = .ok (s, rest)) :
    readChars (n + 1) ('\\' :: d :: t) = .ok (c :: s, rest) := by
  have hu : d ≠ 'u' := by
    rintro rfl
    cases hd
  rw [readChars]
  · simp only [hd, h, bind, Except.bind]
    rfl
  · exact hu

theorem readChars_escape {n : Nat} {s t rest : Text} (c : Char)
    (h : readChars n t = .ok (s, rest)) :
    readChars (n + 1) (escape c ++ t) = .ok (c :: s, rest) := by
  -- the escapes of one letter first, in the order in which they are tried
  by_cases h1 : c = '"'
  · subst h1
    exact readChars_shortEscape (d := '"') rfl h
  by_cases h2 : c = '\\'
  · subst h2
    exact readChars_shortEscape (d := '\\') rfl h
  by_cases h3 : c = '\n'
  · subst h3
    exact readChars_shortEscape (d := 'n') rfl h
  by_cases h4 : c = '\r'
  · subst h4
    exact readChars_shortEscape (d := 'r') rfl h
  by_cases h5 : c = '\t'
  · subst h5
    exact readChars_shortEscape (d := 't') rfl h
  by_cases h6 : c = '\x08'
  · subst h6
    exact readChars_shortEscape (d := 'b') rfl h
  by_cases h7 : c = '\x0c'
  · subst h7
    exact readChars_shortEscape (d := 'f') rfl h
  unfold escape
  simp only [beq_iff_eq, h1, h2, h3, h4, h5, h6, h7, if_false]
  by_cases h8 : c.toNat < 0x20
  · have hcode := readCode_control h8 t
    rw [if_pos h8]
    change readChars (n + 1) ('\\' :: 'u' :: '0' :: '0' :: hexDigit (c.toNat / 16) ::
      hexDigit (c.toNat % 16) :: t) = _
    rw [readChars]
    simp only [hcode, h, bind, Except.bind]
    rfl
  · rw [if_neg h8, List.singleton_append, readChars.eq_def]
    simp only [beq_iff_eq, h1, h2, h8, if_false, h, bind, Except.bind]
    rfl

theorem readChars_quoted (t rest : Text) (n : Nat) (hn : t.length < n) :
    readChars n (t.flatMap escape ++ '"' :: rest) = .ok (t, rest) := by
  induction t generalizing n with
  | nil =>
    cases n with
    | zero => cases hn
    | succ n => simp [readChars]
  | cons c t ih =>
    cases n with
    | zero => cases hn
    | succ n =>
      rw [List.flatMap_cons, List.append_assoc]
      exact readChars_escape c (ih n (Nat.lt_of_succ_lt_succ hn))

theorem length_escape_pos (c : Char) : 0 < (escape c).length := by
  unfold escape
  split_ifs <;> exact Nat.succ_pos _

theorem length_le_flatMap_escape (t : Text) : t.length ≤ (t.flatMap escape).length := by
  induction t with
  | nil => exact Nat.le_refl _
  | cons c t ih =>
    have hpos := length_escape_pos c
    rw [List.flatMap_cons, List.length_append, List.length_cons]
    omega

theorem readString_quoted (t rest : Text) :
    readString (t.flatMap escape ++ '"' :: rest) = .ok (t, rest) := by
  refine readChars_quoted t rest _ ?_
  have hlen := length_le_flatMap_escape t
  rw [List.length_append]
  omega

theorem quote_append (t rest : Text) :
    quote t ++ rest = '"' :: (t.flatMap escape ++ '"' :: rest) := by
  simp [quote]

theorem skipSpace_of_isSpace {c : Char} (h : isSpace c = true) (t : Text) :
    skipSpace (c :: t) = skipSpace t := by
  simp [skipSpace, h]

theorem skipSpace_of_not_isSpace {c : Char} (h : isSpace c = false) (t : Text) :
    skipSpace (c :: t) = c :: t := by
  simp [skipSpace, h]

theorem skipSpace_newline (level : Nat) (t : Text) :
    skipSpace (newline level ++ t) = skipSpace t := by
  have hblanks : ∀ n, skipSpace (List.replicate n ' ' ++ t) = skipSpace t := by
    intro n
    induction n with
    | zero => rfl
    | succ n ih =>
      rw [List.replicate_succ, List.cons_append, skipSpace_of_isSpace rfl, ih]
  rw [newline, List.cons_append, skipSpace_of_isSpace rfl, hblanks]

theorem skipSpace_quote (t rest : Text) : skipSpace (quote t ++ rest) = quote t ++ rest := by
  rw [quote_append, skipSpace_of_not_isSpace rfl]

end DocCoverage.Json
