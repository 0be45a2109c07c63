import DocCoverage.Pattern.Flags
import DocCoverage.Pattern.Library
import DocCoverage.Text.Hex

/-!
# Escape sequences in patterns

What stands behind a backslash: a character by its code or by a short name, a class or a
condition on the place. All readers here take the text and give the text behind what they read;
they have no answer where the sequence is not well formed.
-/
namespace DocCoverage.Pattern

/-- The smallest parts of a pattern. -/
inductive Primitive where
  /-- A character; `byte` when it is written as two hexadecimal digits. -/
  | literal (c : Char) (byte : Bool)
  | set (s : CharSet)
  | look (l : Look)
  deriving DecidableEq, Repr

def asciiWord : CharSet :=
  .ranges [('0'.toNat, '9'.toNat), ('A'.toNat, 'Z'.toNat), ('_'.toNat, '_'.toNat),
    ('a'.toNat, 'z'.toNat)]

def asciiDigit : CharSet := .ranges [('0'.toNat, '9'.toNat)]

def asciiBlank : CharSet := .ranges [(0x09, 0x0d), (0x20, 0x20)]

/-- The word characters that the flags ask for. -/
def Flags.word (f : Flags) : CharSet := if f.unicode then .word else asciiWord

def Flags.decimal (f : Flags) : CharSet := if f.unicode then .decimal else asciiDigit

def Flags.blank (f : Flags) : CharSet := if f.unicode then .blank else asciiBlank

/-- The complement of a set, which only Unicode classes have: bytes alone are no characters. -/
def Flags.compl? (f : Flags) (s : CharSet) : Option CharSet :=
  if f.unicode then some (.compl s) else none

/-- A character with a meaning of its own in patterns. -/
def isMeta (c : Char) : Bool :=
  ['\\', '.', '+', '*', '?', '(', ')', '|', '[', ']', '\x7b', '\x7d', '^', '$', '#', '&', '-',
   '~'].contains c

/-- A character that stands for itself behind a backslash: ASCII other than letters, digits and
angle brackets. -/
def isEscapable (c : Char) : Bool :=
  isMeta c ||
    (Text.isAscii c && !(Text.isAsciiLetter c || Text.isAsciiDigit c || c == '<' || c == '>'))

/-- Exactly `n` characters, with what the flags skip between them. -/
def Flags.fixed? (f : Flags) : (n : Nat) → Text → Option (Text × Text)
  | 0, t => some ([], t)
  | _ + 1, [] => none
  | n + 1, c :: t => do
    let (cs, rest) ← fixed? f n (f.skip t)
    return (c :: cs, rest)

/-- A code point behind the letter that announces it. -/
def Flags.hex? (f : Flags) (letter : Char) (t : Text) : Option (Primitive × Text) :=
  match f.skip t with
  | '\x7b' :: t =>
    match f.collectAll (· != '\x7d') (f.skip t) with
    | (c :: cs, '\x7d' :: rest) => do
      let n ← Text.hexNumber? 0 (c :: cs)
      return (.literal (← Text.charOf? n) false, f.skip rest)
    | _ => none
  | t => do
    let width := if letter == 'x' then 2 else if letter == 'u' then 4 else 8
    let (cs, rest) ← f.fixed? width t
    let n ← Text.hexNumber? 0 cs
    return (.literal (← Text.charOf? n) (letter == 'x'), rest)

/-- What counts of the name of a property: no case, spaces, hyphens or underscores. -/
def plainName (name : Text) : Text :=
  (name.filter fun c => !(c == ' ' || c == '_' || c == '-')).map Char.toLower

/-- The name of a property: a single letter, or what stands in curly brackets. Only Unicode has
properties. -/
def Flags.propertyName? (f : Flags) (t : Text) : Option (Text × Text) :=
  if !f.unicode then none
  else
    match f.skip t with
    | '\x7b' :: t =>
      match f.collectAll (· != '\x7d') (f.skip t) with
      | (name, '\x7d' :: rest) => some (name, rest)
      | _ => none
    | c :: t => if c == '\\' then none else some ([c], f.skip t)
    | [] => none

/-- A class by the name of a property. -/
def Flags.propertyClass? (f : Flags) (ps : Properties) (negated : Bool) (t : Text) :
    Option (Primitive × Text) := do
  let (name, rest) ← f.propertyName? t
  let s ← ps (plainName name)
  let s := if f.caseless then CharSet.caseless s else s
  return (.set (if negated then .compl s else s), rest)

/-- A word boundary, with the side in curly brackets if the text goes on so. -/
def Flags.boundary? (f : Flags) (t : Text) : Option (Primitive × Text) :=
  let isName (c : Char) : Bool := Text.isAsciiLetter c || c == '-'
  match t with
  | '\x7b' :: inner =>
    match f.skip inner with
    | [] => none
    | c :: t' =>
      if isName c then
        match f.collectAll isName (c :: t') with
        | (name, '\x7d' :: rest) =>
          if name == "start" then some (.look (.wordStart f.word), rest)
          else if name == "end" then some (.look (.wordEnd f.word), rest)
          else if name == "start-half" then some (.look (.wordStartHalf f.word), rest)
          else if name == "end-half" then some (.look (.wordEndHalf f.word), rest)
          else none
        | _ => none
      else some (.look (.wordBoundary f.word), '\x7b' :: inner)
  | t => some (.look (.wordBoundary f.word), t)

/-- What stands behind a backslash. -/
def Flags.escape? (f : Flags) (ps : Properties) : Text → Option (Primitive × Text)
  | [] => none
  | c :: t =>
    match c with
    | 'x' => f.hex? 'x' t
    | 'u' => f.hex? 'u' t
    | 'U' => f.hex? 'U' t
    | 'p' => f.propertyClass? ps false t
    | 'P' => f.propertyClass? ps true t
    | 'd' => some (.set f.decimal, t)
    | 's' => some (.set f.blank, t)
    | 'w' => some (.set f.word, t)
    | 'D' => do return (.set (← f.compl? f.decimal), t)
    | 'S' => do return (.set (← f.compl? f.blank), t)
    | 'W' => do return (.set (← f.compl? f.word), t)
    | 'a' => some (.literal '\x07' false, t)
    | 'f' => some (.literal '\x0c' false, t)
    | 't' => some (.literal '\t' false, t)
    | 'n' => some (.literal '\n' false, t)
    | 'r' => some (.literal '\r' false, t)
    | 'v' => some (.literal '\x0b' false, t)
    | 'A' => some (.look .textStart, t)
    | 'z' => some (.look .textEnd, t)
    | 'b' => f.boundary? t
    | 'B' => some (.look (.notWordBoundary f.word), t)
    | '<' => some (.look (.wordStart f.word), t)
    | '>' => some (.look (.wordEnd f.word), t)
    | c => if isEscapable c then some (.literal c false, t) else none

end DocCoverage.Pattern
