import DocCoverage.Proofs.Json.Numbers
import Mathlib.Tactic.IntervalCases

/-!
# Numbers that last

A number lasts if it has the same text after it was written and read back. Integers that fit 64 bits
are read as they were written, and every integer that is read fits; other numbers are scaled anew,
which may miss them.
-/
namespace DocCoverage.JsonNumber

open Json

/-- The number has a minus sign. -/
def isNegative : JsonNumber → Bool
  | .nat _ => false
  | .negative _ => true
  | .real minus _ => minus

/-- The text behind the sign. -/
def unsigned : JsonNumber → Text
  | nat n => Text.ofNat n
  | negative n => Text.ofNat n
  | real _ x => x.text

/-- What is read of the number's own text. -/
def reread (n : JsonNumber) : Reading JsonNumber := finish (readNumber n.isNegative n.unsigned)

/-- The number that is read of the text has the same text. -/
def lasts (n : JsonNumber) : Bool :=
  match n.reread with
  | .ok m => m.render == n.render
  | .error _ => false

theorem lasts_iff {n : JsonNumber} :
    n.lasts = true ↔ ∃ m, n.reread = .ok m ∧ m.render = n.render := by
  unfold lasts
  cases n.reread <;> simp

theorem render_eq (n : JsonNumber) :
    n.render = (if n.isNegative then ['-'] else []) ++ n.unsigned := by
  rcases n with n | n | ⟨_ | _, x⟩ <;> rfl

theorem numeral_unsigned (n : JsonNumber) : Numeral n.unsigned := by
  cases n with
  | nat n | negative n => exact numeral_digits (digits_ofNat n)
  | real negative x => exact numeral_text x

/-- A number is read of its text as it is read of the text alone. -/
theorem readNumber_unsigned (n : JsonNumber) {rest : Text} (hrest : Stops rest) :
    readNumber n.isNegative (n.unsigned ++ rest) = n.reread.map fun m => (m, rest) := by
  obtain ⟨r, hr⟩ := readNumber_numeral n.isNegative n.numeral_unsigned
  have hreread : n.reread = r := by
    rw [reread, ← List.append_nil n.unsigned, hr [] stops_nil]
    cases r <;> rfl
  rw [hr rest hrest, hreread]

/-! ## Integers of 64 bits -/

section

variable {n : JsonNumber} {s : Nat} {t : Text}

/-- The number is no integer. -/
def isReal : JsonNumber → Bool
  | nat _ => false
  | negative _ => false
  | real _ _ => true

/-- The number fits 64 bits, if it is an integer. -/
def Fits : JsonNumber → Prop
  | nat n => n ≤ maxSignificand
  | negative n => 0 < n ∧ n ≤ Nat.pow 2 63
  | real _ _ => True

theorem le_ofDigitChars (ds : Text) (s : Nat) : s ≤ Nat.ofDigitChars 10 ds s := by
  induction ds generalizing s with
  | nil => exact Nat.le_refl s
  | cons c ds ih =>
    rw [Nat.ofDigitChars_cons]
    exact Nat.le_trans (by omega) (ih _)

theorem takeDigits_fits {ds : Text} {s taken : Nat}
    (h : Nat.ofDigitChars 10 ds s ≤ maxSignificand) :
    takeDigits s taken ds = (Nat.ofDigitChars 10 ds s, taken + ds.length, []) := by
  induction ds generalizing s taken with
  | nil => rfl
  | cons c ds ih =>
    have hnext : s * 10 + digitValue c = 10 * s + (c.toNat - '0'.toNat) := by
      rw [Nat.mul_comm, digitValue]
    rw [Nat.ofDigitChars_cons] at h ⊢
    have hle := (le_ofDigitChars ds _).trans h
    rw [takeDigits, hnext, if_neg (by omega), ih h, List.length_cons]
    congr 2
    omega

/-- The first digit of a positive number is no zero. -/
theorem head?_ofNat_ne_zero {n : Nat} (h : 0 < n) : (Text.ofNat n).head? ≠ some '0' := by
  induction n using Nat.strongRecOn with
  | ind n ih =>
    by_cases hn : n < 10
    · rw [Text.ofNat, Nat.toDigits_of_lt_base hn]
      interval_cases n <;> decide
    · have hsplit : Text.ofNat n = Text.ofNat (n / 10) ++ Text.ofNat (n % 10) := by
        rw [Text.ofNat, Text.ofNat, Text.ofNat, Nat.toDigits_append_toDigits (by omega) (by omega)
          (by omega), Nat.div_add_mod]
      obtain ⟨c, t, hc, -⟩ := Text.exists_ofNat (n / 10)
      have hhead := ih (n / 10) (by omega) (by omega)
      rw [hsplit, hc]
      rwa [hc] at hhead

/-- The text of an integer that fits is read as the integer. -/
theorem readNumber_ofNat {n : Nat} (h : n ≤ maxSignificand) (minus : Bool) :
    readNumber minus (Text.ofNat n) = readAfterInteger minus n [] := by
  rcases Nat.eq_zero_or_pos n with rfl | hpos
  · exact readNumber_zero (t := []) (by simp)
  · have hvalue : Nat.ofDigitChars 10 (Text.ofNat n) 0 = n :=
      Nat.ofDigitChars_toDigits (by omega) (by omega)
    rw [← List.append_nil (Text.ofNat n), readNumber_digits (digits_ofNat n)
      (head?_ofNat_ne_zero hpos) (by simp), takeDigits_fits (hvalue.symm ▸ h), hvalue]
    rfl

theorem reread_of_fits (h : n.Fits) (hinteger : n.isReal = false) : n.reread = .ok n := by
  cases n with
  | nat n =>
    rw [reread, unsigned, readNumber_ofNat h]
    rfl
  | negative n =>
    obtain ⟨hpos, hle⟩ := h
    have hlt : ¬Nat.pow 2 63 < n := by omega
    have hread : readAfterInteger true n [] = .ok (.negative n, []) := by
      rw [readAfterInteger] <;> simp [hpos.ne', hlt]
    rw [reread, unsigned, readNumber_ofNat (hle.trans (by decide)), isNegative, hread]
    rfl
  | real => cases hinteger

theorem lasts_of_fits (h : n.Fits) (hinteger : n.isReal = false) : n.lasts = true :=
  lasts_iff.mpr ⟨n, reread_of_fits h hinteger, rfl⟩

/-- Another number may be read back as its neighbour. -/
example : (real false ⟨8940696716308594, 25⟩).render = "3e23".toList ∧
    (real false ⟨8940696716308594, 25⟩).lasts = false := by
  decide +kernel

/-! ## Numbers that are read -/

theorem takeDigits_le (taken : Nat) (t : Text) (h : s ≤ maxSignificand) :
    (takeDigits s taken t).1 ≤ maxSignificand := by
  induction t generalizing s taken with
  | nil => exact h
  | cons c t ih =>
    rw [takeDigits]
    split
    · exact h
    · exact ih _ (by omega)

/-- A number that the reading gives fits. -/
def GivesFit (r : Reading (JsonNumber × Text)) : Prop := ∀ x rest, r = .ok (x, rest) → x.Fits

theorem GivesFit.error {e : Fault} : GivesFit (.error e) := fun _ _ h => nomatch h

theorem GivesFit.ok {x : JsonNumber} (h : x.Fits) : GivesFit (.ok (x, t)) := by
  rintro y rest hy
  exact (Prod.mk.inj (Except.ok.inj hy)).1 ▸ h

theorem GivesFit.ite {p : Prop} [Decidable p] {a b : Reading (JsonNumber × Text)} (ha : GivesFit a)
    (hb : GivesFit b) : GivesFit (if p then a else b) := by
  split
  · exact ha
  · exact hb

theorem givesFit_ofParts (minus : Bool) (s : Nat) (k : Int) (t : Text) :
    GivesFit (ofParts minus s k >>= fun x => .ok (x, t)) := by
  unfold ofParts
  split
  · exact .ok trivial
  · exact .error

theorem givesFit_readExponent (minus : Bool) (s : Nat) (k : Int) (t : Text) :
    GivesFit (readExponent minus s k t) := by
  unfold readExponent
  dsimp only
  split
  · exact .error
  · exact .error
  · exact .ite (.ite .error (.ok trivial)) (givesFit_ofParts _ _ _ _)

theorem givesFit_readScale (minus : Bool) (s : Nat) (k : Int) (t : Text) :
    GivesFit (readScale minus s k t) := by
  unfold readScale
  split
  · exact givesFit_readExponent _ _ _ _
  · exact givesFit_readExponent _ _ _ _
  · exact givesFit_ofParts _ _ _ _

theorem givesFit_readFraction (minus : Bool) (s : Nat) (k : Int) (t : Text) :
    GivesFit (readFraction minus s k t) := by
  unfold readFraction
  split
  · exact .error
  · exact .error
  · exact givesFit_readScale _ _ _ _

theorem givesFit_readAfterInteger (minus : Bool) (h : s ≤ maxSignificand) (t : Text) :
    GivesFit (readAfterInteger minus s t) := by
  unfold readAfterInteger
  split
  · exact givesFit_readFraction _ _ _ _
  · exact givesFit_readExponent _ _ _ _
  · exact givesFit_readExponent _ _ _ _
  · split
    · exact .ok h
    · split
      · exact givesFit_ofParts _ _ _ _
      · rename_i hlarge
        simp only [Bool.or_eq_true, beq_iff_eq, decide_eq_true_eq, not_or, not_lt] at hlarge
        exact .ok ⟨Nat.pos_of_ne_zero hlarge.1, hlarge.2⟩

theorem givesFit_readNumber (minus : Bool) (t : Text) : GivesFit (readNumber minus t) := by
  unfold readNumber
  split
  · exact .error
  · split
    · split
      · exact .error
      · exact givesFit_readAfterInteger minus (Nat.zero_le _) _
    · exact givesFit_readAfterInteger minus (Nat.zero_le _) _
  · split
    · exact .error
    · dsimp only
      split
      · rename_i c u _ _ _ significand _ htake
        have hle := takeDigits_le 0 (digitsOf (c :: u)).1 (Nat.zero_le maxSignificand)
        rw [htake] at hle
        exact givesFit_readAfterInteger minus hle _
      · split
        · exact givesFit_readFraction _ _ _ _
        · exact givesFit_readScale _ _ _ _

end

end DocCoverage.JsonNumber
