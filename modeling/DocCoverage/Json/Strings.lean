import DocCoverage.Json.Value
import DocCoverage.Text.Hex

/-!
# Reading JSON strings

Readers take the text and give a value with the text behind it. A failure is one of three faults:
the text ends too early, it is not JSON, or a value has another shape than was asked for. Which
fault is met first decides, so a reader asks for the shape as soon as a value begins.
-/
namespace DocCoverage.Json

inductive Fault where
  /-- The text ends inside a value. -/
  | unexpectedEnd
  /-- The text is not JSON. -/
  | malformed
  /-- A value is JSON but not of the wanted shape. -/
  | wrongShape
  deriving DecidableEq, Repr

/-- A reading either succeeds or has a fault. -/
abbrev Reading := Except Fault

def isSpace (c : Char) : Bool := c == ' ' || c == '\n' || c == '\t' || c == '\r'

def skipSpace (t : Text) : Text := t.dropWhile isSpace

/-- The rest of a word whose first character is already read. -/
def readWord : (word t : Text) → Reading (Unit × Text)
  | [], t => .ok ((), t)
  | _ :: _, [] => .error .unexpectedEnd
  | c :: word, d :: t => if c == d then readWord word t else .error .malformed

def readHex4 (t : Text) : Reading (Nat × Text) :=
  if Text.byteLength t < 4 then .error .unexpectedEnd
  else
    match Text.hexNumber? 0 (t.take 4) with
    | some n => .ok (n, t.drop 4)
    | none => .error .malformed

def isHighSurrogate (n : Nat) : Bool := 0xd800 ≤ n && n ≤ 0xdbff

def isLowSurrogate (n : Nat) : Bool := 0xdc00 ≤ n && n ≤ 0xdfff

/-- The character behind `\u`; surrogates have to come in pairs. -/
def readCode (t : Text) : Reading (Char × Text) := do
  let (n, t) ← readHex4 t
  if isLowSurrogate n then throw .malformed
  if !isHighSurrogate n then return (Char.ofNat n, t)
  match t with
  | [] => throw .unexpectedEnd
  | ['\\'] => throw .unexpectedEnd
  | '\\' :: 'u' :: t =>
    let (m, t) ← readHex4 t
    if !isLowSurrogate m then throw .malformed
    return (Char.ofNat (0x10000 + (n - 0xd800) * 0x400 + (m - 0xdc00)), t)
  | _ => throw .malformed

/-- The character of a one-letter escape. -/
def shortEscape? (c : Char) : Option Char :=
  match c with
  | '"' => some '"'
  | '\\' => some '\\'
  | '/' => some '/'
  | 'b' => some '\x08'
  | 'f' => some '\x0c'
  | 'n' => some '\n'
  | 'r' => some '\r'
  | 't' => some '\t'
  | _ => none

/-- The characters of a string up to and with its closing quote. -/
def readChars : (fuel : Nat) → Text → Reading (Text × Text)
  | 0, _ => .error .unexpectedEnd
  | _ + 1, [] => .error .unexpectedEnd
  | n + 1, c :: t =>
    if c == '"' then .ok ([], t)
    else if c == '\\' then
      match t with
      | [] => .error .unexpectedEnd
      | 'u' :: t => do
        let (d, t) ← readCode t
        let (s, t) ← readChars n t
        return (d :: s, t)
      | e :: t => do
        match shortEscape? e with
        | none => throw .malformed
        | some d =>
          let (s, t) ← readChars n t
          return (d :: s, t)
    else if c.toNat < 0x20 then .error .malformed
    else do
      let (s, t) ← readChars n t
      return (c :: s, t)

def readString (t : Text) : Reading (Text × Text) := readChars (t.length + 1) t

/-- Pass over a string, whose surrogates need not be paired. -/
def skipChars : (fuel : Nat) → Text → Reading (Unit × Text)
  | 0, _ => .error .unexpectedEnd
  | _ + 1, [] => .error .unexpectedEnd
  | n + 1, c :: t =>
    if c == '"' then .ok ((), t)
    else if c == '\\' then
      match t with
      | [] => .error .unexpectedEnd
      | 'u' :: t => do
        let (_, t) ← readHex4 t
        skipChars n t
      | e :: t => if (shortEscape? e).isSome then skipChars n t else .error .malformed
    else if c.toNat < 0x20 then .error .malformed
    else skipChars n t

end DocCoverage.Json
