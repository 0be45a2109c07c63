import DocCoverage.Json.Strings

/-!
# Reading JSON numbers

An integer that fits 64 bits is exact. Every other number is made of a significand of at most 64
bits and a decimal exponent: digits beyond the significand only count as places, and the scaling
rounds in double precision. A number beyond the largest finite magnitude is not accepted.
-/
namespace DocCoverage.Json

def digitsOf (t : Text) : Text × Text := t.span Text.isAsciiDigit

def digitValue (c : Char) : Nat := c.toNat - '0'.toNat

/-- The largest significand that is kept exactly. -/
def maxSignificand : Nat := Nat.pow 2 64 - 1

/-- Take digits into a significand as long as it fits; gives the number of digits taken and those
left. -/
def takeDigits (significand taken : Nat) : Text → Nat × Nat × Text
  | [] => (significand, taken, [])
  | c :: t =>
    let next := significand * 10 + digitValue c
    if maxSignificand < next then (significand, taken, c :: t)
    else takeDigits next (taken + 1) t

/-- `10 ^ k`, rounded; the scale goes up to `10 ^ 308`. -/
def powerOfTen (k : Nat) : Option Binary64 :=
  if k ≤ 308 then Binary64.ofNat (Nat.pow 10 k) else none

/-- Scale a magnitude by a power of ten, in steps of at most 308 decimal places. There is no answer
beyond the largest finite magnitude. -/
def scale : (fuel : Nat) → Binary64 → Int → Option Binary64
  | 0, x, _ => some x
  | n + 1, x, e =>
    match powerOfTen e.natAbs with
    | some p => if 0 ≤ e then x.mul p else x.div p
    | none =>
      if x.isZero then some x
      else if 0 ≤ e then none
      else do
        let p ← powerOfTen 308
        let x ← x.div p
        scale n x (e + 308)

def ofParts (negative : Bool) (significand : Nat) (exponent : Int) : Except Fault JsonNumber :=
  match (Binary64.ofNat significand).bind fun x => scale 16 x exponent with
  | some x => .ok (.real negative x)
  | none => .error .malformed

def clamp32 (e : Int) : Int := max (-2147483648) (min e 2147483647)

/-- The exponent behind its letter, and the number that it makes. -/
def readExponent (negative : Bool) (significand : Nat) (start : Int) (t : Text) :
    Reading (JsonNumber × Text) := do
  let (minus, t) := match t with
    | '+' :: t => (false, t)
    | '-' :: t => (true, t)
    | t => (false, t)
  match digitsOf t with
  | ([], []) => throw .unexpectedEnd
  | ([], _ :: _) => throw .malformed
  | (digits, rest) =>
    let e := digits.foldl (fun n d => n * 10 + digitValue d) 0
    if 2147483647 < e then
      if significand != 0 && !minus then throw .malformed
      return (.real negative .zero, rest)
    else
      let e : Int := clamp32 (if minus then start - e else start + e)
      return (← ofParts negative significand e, rest)

/-- What follows the digits of a number that is not an integer. -/
def readScale (negative : Bool) (significand : Nat) (exponent : Int) (t : Text) :
    Reading (JsonNumber × Text) :=
  match t with
  | 'e' :: t => readExponent negative significand exponent t
  | 'E' :: t => readExponent negative significand exponent t
  | t => do return (← ofParts negative significand exponent, t)

/-- The decimal places behind the point. -/
def readFraction (negative : Bool) (significand : Nat) (exponent : Int) (t : Text) :
    Reading (JsonNumber × Text) :=
  match digitsOf t with
  | ([], []) => .error .unexpectedEnd
  | ([], _ :: _) => .error .malformed
  | (digits, rest) =>
    let (significand, taken, _) := takeDigits significand 0 digits
    readScale negative significand (exponent - taken) rest

/-- What follows the digits of an integer that fits. -/
def readAfterInteger (negative : Bool) (significand : Nat) (t : Text) :
    Reading (JsonNumber × Text) :=
  match t with
  | '.' :: t => readFraction negative significand 0 t
  | 'e' :: t => readExponent negative significand 0 t
  | 'E' :: t => readExponent negative significand 0 t
  | t =>
    if !negative then .ok (.nat significand, t)
    else if significand == 0 || Nat.pow 2 63 < significand then do
      return (← ofParts true significand 0, t)
    else .ok (.negative significand, t)

/-- A number behind its sign. -/
def readNumber (negative : Bool) (t : Text) : Reading (JsonNumber × Text) :=
  match t with
  | [] => .error .unexpectedEnd
  | '0' :: t =>
    match t with
    | c :: _ =>
      if Text.isAsciiDigit c then .error .malformed else readAfterInteger negative 0 t
    | [] => readAfterInteger negative 0 t
  | c :: _ =>
    if !Text.isAsciiDigit c then .error .malformed
    else
      let (digits, rest) := digitsOf t
      match takeDigits 0 0 digits with
      | (significand, _, []) => readAfterInteger negative significand rest
      | (significand, _, left) =>
        match rest with
        | '.' :: rest => readFraction negative significand left.length rest
        | rest => readScale negative significand left.length rest

/-- Pass over the digits behind a point or an exponent. -/
def skipDigits (t : Text) : Reading (Unit × Text) :=
  match digitsOf t with
  | ([], _) => .error .malformed
  | (_, rest) => .ok ((), rest)

/-- Pass over an exponent, if there is one. -/
def skipExponent (t : Text) : Reading (Unit × Text) :=
  let signed (t : Text) : Reading (Unit × Text) :=
    match t with
    | '+' :: t => skipDigits t
    | '-' :: t => skipDigits t
    | t => skipDigits t
  match t with
  | 'e' :: t => signed t
  | 'E' :: t => signed t
  | t => .ok ((), t)

/-- Pass over a number behind its sign, whatever its size. -/
def skipNumber (t : Text) : Reading (Unit × Text) := do
  match digitsOf t with
  | ([], _) => throw .malformed
  | ('0' :: _ :: _, _) => throw .malformed
  | (_, '.' :: rest) =>
    let (_, rest) ← skipDigits rest
    skipExponent rest
  | (_, rest) => skipExponent rest

end DocCoverage.Json
