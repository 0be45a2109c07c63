import DocCoverage.Text.Basic
import DocCoverage.Text.CharClass
import Mathlib.Tactic.Common

/-!
# Decimal texts

The decimal text of a number is a digit with further digits behind it.
-/
namespace DocCoverage.Text

theorem isAsciiDigit_of_mem_ofNat {n : Nat} {c : Char} (h : c ∈ ofNat n) : isAsciiDigit c = true :=
  Nat.isDigit_of_mem_toDigits (b := 10) (by decide) (by decide) h

theorem exists_ofNat (n : Nat) : ∃ c t, ofNat n = c :: t ∧ isAsciiDigit c = true := by
  obtain ⟨c, t, h⟩ := List.exists_cons_of_ne_nil (l := ofNat n) Nat.toDigits_ne_nil
  have hc : c ∈ ofNat n := by rw [h]; exact List.mem_cons_self
  exact ⟨c, t, h, isAsciiDigit_of_mem_ofNat hc⟩

end DocCoverage.Text
