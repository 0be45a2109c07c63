/-!
# Double precision magnitudes

A magnitude is an integer times a power of two. Every operation works on the exact rational value
and rounds once, to the nearest magnitude and a tie to the even one; there is no answer beyond the
largest finite magnitude.
-/
namespace DocCoverage

/-- The magnitude `mantissa · 2 ^ exponent`. -/
structure Binary64 where
  mantissa : Nat
  exponent : Int
  deriving DecidableEq, Repr

namespace Binary64

def zero : Binary64 := ⟨0, -1074⟩

def isZero (x : Binary64) : Bool := x.mantissa == 0

def num (x : Binary64) : Nat := x.mantissa * Nat.pow 2 x.exponent.toNat

def den (x : Binary64) : Nat := Nat.pow 2 (-x.exponent).toNat

/-- The integer nearest to a quotient, a tie going to the even one. -/
def roundDiv (n d : Nat) : Nat :=
  let q := n / d
  let r := n % d
  if d < 2 * r || (2 * r == d && q % 2 == 1) then q + 1 else q

/-- The greatest `f` with `2 ^ f ≤ n / d`. -/
def floorLog2 (n d : Nat) : Int :=
  let f : Int := (Nat.log2 n : Int) - Nat.log2 d
  if d * Nat.pow 2 f.toNat ≤ n * Nat.pow 2 (-f).toNat then f else f - 1

/-- The magnitude nearest to a quotient. -/
def ofRatio (n d : Nat) : Option Binary64 :=
  if n == 0 then some zero
  else
    let e := max (floorLog2 n d - 52) (-1074)
    let q := roundDiv (n * Nat.pow 2 (-e).toNat) (d * Nat.pow 2 e.toNat)
    let x : Binary64 := if q == Nat.pow 2 53 then ⟨Nat.pow 2 52, e + 1⟩ else ⟨q, e⟩
    if 971 < x.exponent then none else some x

def ofNat (n : Nat) : Option Binary64 := ofRatio n 1

def mul (x y : Binary64) : Option Binary64 := ofRatio (x.num * y.num) (x.den * y.den)

def div (x y : Binary64) : Option Binary64 := ofRatio (x.num * y.den) (x.den * y.num)

end Binary64

end DocCoverage
