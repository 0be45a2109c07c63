import DocCoverage.Files.Utf8
import Mathlib.Tactic.SplitIfs

/-!
# Decoding what was encoded

The bytes of a text decode to the text. A character is decoded from its own bytes whatever follows
them, so the proof goes through the text character by character.
-/
namespace DocCoverage.Utf8

section

variable {n index : Nat} {b0 b1 b2 b3 : UInt8} {rest : Bytes}

attribute [local simp] decodeFrom

theorem decodeFrom_one (hw : width b0.toNat = 1) :
    decodeFrom (n + 1) index (b0 :: rest) =
      (decodeFrom n (index + 1) rest).map (Char.ofNat b0.toNat :: ·) := by
  simp [hw]

theorem decodeFrom_two (hw : width b0.toNat = 2) (h1 : isTail b1.toNat = true) :
    decodeFrom (n + 1) index (b0 :: b1 :: rest) =
      (decodeFrom n (index + 2) rest).map
        (Char.ofNat ((b0.toNat - 0xc0) * 0x40 + (b1.toNat - 0x80)) :: ·) := by
  simp [hw, h1]

theorem decodeFrom_three (hw : width b0.toNat = 3) (h1 : isSecond b0.toNat b1.toNat = true)
    (h2 : isTail b2.toNat = true) :
    decodeFrom (n + 1) index (b0 :: b1 :: b2 :: rest) =
      (decodeFrom n (index + 3) rest).map
        (Char.ofNat ((b0.toNat - 0xe0) * 0x1000 + (b1.toNat - 0x80) * 0x40 +
          (b2.toNat - 0x80)) :: ·) := by
  simp [hw, h1, h2]

theorem decodeFrom_four (hw : width b0.toNat = 4) (h1 : isSecond b0.toNat b1.toNat = true)
    (h2 : isTail b2.toNat = true) (h3 : isTail b3.toNat = true) :
    decodeFrom (n + 1) index (b0 :: b1 :: b2 :: b3 :: rest) =
      (decodeFrom n (index + 4) rest).map
        (Char.ofNat ((b0.toNat - 0xf0) * 0x40000 + (b1.toNat - 0x80) * 0x1000 +
          (b2.toNat - 0x80) * 0x40 + (b3.toNat - 0x80)) :: ·) := by
  simp [hw, h1, h2, h3]

end

theorem toNat_toUInt8 {n : Nat} (h : n < 256) : n.toUInt8.toNat = n := by
  simp [Nat.mod_eq_of_lt h]

theorem isTail_low (n : Nat) : isTail (0x80 + n % 0x40) = true := by
  have hlt := Nat.mod_lt n (show 0x40 > 0 by decide)
  simp only [isTail, Bool.and_eq_true, decide_eq_true_eq]
  omega

/-- Behind the first byte of a character of three bytes, the second keeps it from being too small
for three bytes and from being a surrogate. -/
theorem isSecond_three {x : Nat} (hlow : 0x800 ≤ x) (hhigh : x < 0x10000)
    (hvalid : x < 0xd800 ∨ 0xdfff < x) :
    isSecond (0xe0 + x / 0x1000) (0x80 + x / 0x40 % 0x40) = true := by
  have hlt := Nat.mod_lt (x / 0x40) (show 0x40 > 0 by decide)
  unfold isSecond
  simp only [beq_iff_eq, isTail]
  split_ifs <;> simp only [Bool.and_eq_true, decide_eq_true_eq] <;> omega

theorem isSecond_four {x : Nat} (hlow : 0x10000 ≤ x) (hhigh : x < 0x110000) :
    isSecond (0xf0 + x / 0x40000) (0x80 + x / 0x1000 % 0x40) = true := by
  have hlt := Nat.mod_lt (x / 0x1000) (show 0x40 > 0 by decide)
  unfold isSecond
  simp only [beq_iff_eq, isTail]
  split_ifs <;> simp only [Bool.and_eq_true, decide_eq_true_eq] <;> omega

theorem width_eq {n : Nat} :
    (n < 0x80 → width n = 1) ∧ (0xc2 ≤ n → n ≤ 0xdf → width n = 2) ∧
      (0xe0 ≤ n → n ≤ 0xef → width n = 3) ∧ (0xf0 ≤ n → n ≤ 0xf4 → width n = 4) := by
  unfold width
  simp only [Bool.and_eq_true, decide_eq_true_eq]
  split_ifs <;> omega

/-- A character is decoded from its bytes whatever stands behind them. -/
theorem decodeFrom_encodeChar (c : Char) (n index : Nat) (rest : Bytes) :
    decodeFrom (n + 1) index (encodeChar c ++ rest) =
      (decodeFrom n (index + (encodeChar c).length) rest).map (c :: ·) := by
  have hvalid : c.toNat < 0xd800 ∨ 0xdfff < c.toNat ∧ c.toNat < 0x110000 := c.valid
  have hchar : Char.ofNat c.toNat = c := Char.ofNat_toNat c
  unfold encodeChar
  generalize c.toNat = x at hvalid hchar
  have hlow : (0x80 + x % 0x40).toUInt8.toNat = 0x80 + x % 0x40 := toNat_toUInt8 (by omega)
  have hmid : (0x80 + x / 0x40 % 0x40).toUInt8.toNat = 0x80 + x / 0x40 % 0x40 :=
    toNat_toUInt8 (by omega)
  by_cases h1 : x < 0x80
  · have hx : x.toUInt8.toNat = x := toNat_toUInt8 (by omega)
    rw [if_pos h1, List.singleton_append, decodeFrom_one (by rw [hx]; exact width_eq.1 h1), hx,
      hchar]
    rfl
  by_cases h2 : x < 0x800
  · have hx : (0xc0 + x / 0x40).toUInt8.toNat = 0xc0 + x / 0x40 := toNat_toUInt8 (by omega)
    have hw : width (0xc0 + x / 0x40) = 2 := width_eq.2.1 (by omega) (by omega)
    have hcode : (0xc0 + x / 0x40 - 0xc0) * 0x40 + (0x80 + x % 0x40 - 0x80) = x := by omega
    rw [if_neg h1, if_pos h2, List.cons_append, List.singleton_append,
      decodeFrom_two (by rw [hx, hw]) (by rw [hlow]; exact isTail_low x), hx, hlow, hcode, hchar]
    rfl
  by_cases h3 : x < 0x10000
  · have hx : (0xe0 + x / 0x1000).toUInt8.toNat = 0xe0 + x / 0x1000 := toNat_toUInt8 (by omega)
    have hw : width (0xe0 + x / 0x1000) = 3 := width_eq.2.2.1 (by omega) (by omega)
    have hcode : (0xe0 + x / 0x1000 - 0xe0) * 0x1000 + (0x80 + x / 0x40 % 0x40 - 0x80) * 0x40 +
        (0x80 + x % 0x40 - 0x80) = x := by omega
    have hsecond := isSecond_three (by omega) h3 (by omega)
    rw [if_neg h1, if_neg h2, if_pos h3, List.cons_append, List.cons_append, List.singleton_append,
      decodeFrom_three (by rw [hx, hw]) (by rw [hx, hmid, hsecond])
        (by rw [hlow]; exact isTail_low x), hx, hmid, hlow, hcode, hchar]
    rfl
  · have hx : (0xf0 + x / 0x40000).toUInt8.toNat = 0xf0 + x / 0x40000 := toNat_toUInt8 (by omega)
    have hnext : (0x80 + x / 0x1000 % 0x40).toUInt8.toNat = 0x80 + x / 0x1000 % 0x40 :=
      toNat_toUInt8 (by omega)
    have hw : width (0xf0 + x / 0x40000) = 4 := width_eq.2.2.2 (by omega) (by omega)
    have hcode : (0xf0 + x / 0x40000 - 0xf0) * 0x40000 +
        (0x80 + x / 0x1000 % 0x40 - 0x80) * 0x1000 + (0x80 + x / 0x40 % 0x40 - 0x80) * 0x40 +
        (0x80 + x % 0x40 - 0x80) = x := by omega
    have hsecond := isSecond_four (x := x) (by omega) (by omega)
    rw [if_neg h1, if_neg h2, if_neg h3, List.cons_append, List.cons_append, List.cons_append,
      List.singleton_append,
      decodeFrom_four (by rw [hx, hw]) (by rw [hx, hnext, hsecond])
        (by rw [hmid]; exact isTail_low _) (by rw [hlow]; exact isTail_low x), hx, hnext, hmid,
      hlow, hcode, hchar]
    rfl

theorem length_encodeChar_pos (c : Char) : 0 < (encodeChar c).length := by
  simp only [encodeChar]
  split_ifs <;> exact Nat.succ_pos _

theorem length_le_encode (t : Text) : t.length ≤ (encode t).length := by
  induction t with
  | nil => exact Nat.le_refl _
  | cons c t ih =>
    have hpos := length_encodeChar_pos c
    rw [encode, List.flatMap_cons, List.length_append, List.length_cons]
    rw [encode] at ih
    omega

theorem decodeFrom_encode (t : Text) (n index : Nat) (hn : t.length ≤ n) :
    decodeFrom n index (encode t) = .ok t := by
  induction t generalizing n index with
  | nil => cases n <;> rfl
  | cons c t ih =>
    cases n with
    | zero => cases hn
    | succ n =>
      have hrest := ih n (index + (encodeChar c).length) (Nat.le_of_succ_le_succ hn)
      rw [encode] at hrest ⊢
      rw [List.flatMap_cons, decodeFrom_encodeChar, hrest]
      rfl

theorem decode_encode (t : Text) : decode (encode t) = .ok t :=
  decodeFrom_encode t _ 0 (length_le_encode t)

end DocCoverage.Utf8
