import DocCoverage.Text.CharClass
import DocCoverage.Text.Basic

/-!
# Hexadecimal numbers and code points
-/
namespace DocCoverage.Text

def hexValue? (c : Char) : Option Nat :=
  if isAsciiDigit c then some (c.toNat - '0'.toNat)
  else if 'a' ≤ c && c ≤ 'f' then some (c.toNat - 'a'.toNat + 10)
  else if 'A' ≤ c && c ≤ 'F' then some (c.toNat - 'A'.toNat + 10)
  else none

/-- The number that hexadecimal digits write. -/
def hexNumber? (acc : Nat) : Text → Option Nat
  | [] => some acc
  | c :: t => do
    let d ← hexValue? c
    hexNumber? (acc * 16 + d) t

/-- The character of a code point, which is no surrogate. -/
def charOf? (n : Nat) : Option Char :=
  if n < 0xd800 || (0xdfff < n && n < 0x110000) then some (Char.ofNat n) else none

end DocCoverage.Text
