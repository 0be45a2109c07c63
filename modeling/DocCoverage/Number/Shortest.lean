import DocCoverage.Number.Binary64
import DocCoverage.Text.Basic

/-!
# Shortest decimal text of a magnitude

The decimal of a magnitude has the fewest digits that still round back to it, and among those it
is the nearest one. Numbers from 10⁻⁵ up to 10¹⁶ are written positionally, the others with an
exponent.
-/
namespace DocCoverage

/-- The decimal `digits · 10 ^ exponent`. -/
structure Decimal where
  digits : Nat
  exponent : Int
  deriving DecidableEq, Repr

namespace Binary64

/-- A fraction with a non-negative numerator. -/
structure Fraction where
  num : Nat
  den : Nat

def Fraction.lt (a b : Fraction) : Bool := a.num * b.den < b.num * a.den

def Fraction.le (a b : Fraction) : Bool := a.num * b.den ≤ b.num * a.den

/-- `n · 10 ^ e` as a fraction. -/
def Fraction.scaled (n : Nat) (e : Int) : Fraction :=
  ⟨n * Nat.pow 10 e.toNat, Nat.pow 10 (-e).toNat⟩

/-- The middle between a magnitude and the next smaller one. -/
def lower (x : Binary64) : Fraction :=
  if x.mantissa == Nat.pow 2 52 && -1074 < x.exponent then
    ⟨(4 * x.mantissa - 1) * Nat.pow 2 x.exponent.toNat, 4 * x.den⟩
  else ⟨(2 * x.mantissa - 1) * Nat.pow 2 x.exponent.toNat, 2 * x.den⟩

/-- The middle between a magnitude and the next larger one. -/
def upper (x : Binary64) : Fraction :=
  ⟨(2 * x.mantissa + 1) * Nat.pow 2 x.exponent.toNat, 2 * x.den⟩

/-- A fraction rounds to the magnitude. -/
def roundsTo (x : Binary64) (v : Fraction) : Bool :=
  if x.mantissa % 2 == 0 then x.lower.le v && v.le x.upper
  else x.lower.lt v && v.lt x.upper

/-- The least `k` above -330 with `x < 10 ^ k`. -/
def decimalPoint (x : Binary64) : Int :=
  let above (i : Nat) : Bool := Fraction.lt ⟨x.num, x.den⟩ (.scaled 1 ((i : Int) - 330))
  match (List.range 660).find? above with
  | some i => (i : Int) - 330
  | none => 330

/-- The neighbour of a magnitude on the grid of multiples of `10 ^ e` that rounds back to it; the
nearer one of two. -/
def onGrid (x : Binary64) (e : Int) : Option Nat :=
  let n := x.num * Nat.pow 10 (-e).toNat
  let d := x.den * Nat.pow 10 e.toNat
  let below := n / d
  let nearest := roundDiv n d
  let other := if nearest == below then below + 1 else below
  let fits (k : Nat) : Bool := k != 0 && x.roundsTo (.scaled k e)
  if fits nearest then some nearest else if fits other then some other else none

/-- Drop zeros at the end of the digits. -/
def stripZeros : (fuel : Nat) → Decimal → Decimal
  | 0, d => d
  | n + 1, d =>
    if d.digits != 0 && d.digits % 10 == 0 then stripZeros n ⟨d.digits / 10, d.exponent + 1⟩ else d

/-- The shortest decimal of a magnitude other than zero. -/
def shortest (x : Binary64) : Decimal :=
  let k := x.decimalPoint
  match (List.range 18).findSome? fun (i : Nat) =>
      (x.onGrid (k - i)).map fun n => (⟨n, k - i⟩ : Decimal) with
  | some d => stripZeros 20 d
  | none => ⟨x.mantissa, 0⟩

def text (x : Binary64) : Text :=
  if x.isZero then "0.0"
  else
    let d := x.shortest
    let digits := Text.ofNat d.digits
    let k := d.exponent
    let point : Int := digits.length + k
    if 0 ≤ k && point ≤ 16 then digits ++ List.replicate k.toNat '0' ++ ".0"
    else if 0 < point && point ≤ 16 then
      digits.take point.toNat ++ "." ++ digits.drop point.toNat
    else if -5 < point && point ≤ 0 then "0." ++ List.replicate (-point).toNat '0' ++ digits
    else
      let e := point - 1
      let exponent : Text := if e < 0 then "-" ++ Text.ofNat (-e).toNat else Text.ofNat e.toNat
      let mantissa : Text :=
        if digits.length == 1 then digits else digits.take 1 ++ "." ++ digits.drop 1
      mantissa ++ "e" ++ exponent

end Binary64

end DocCoverage
