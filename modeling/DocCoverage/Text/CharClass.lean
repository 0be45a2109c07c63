import DocCoverage.Text.Alphabetic
import DocCoverage.Text.Numeral
import DocCoverage.Text.Mark

/-!
# Classes of characters

The Unicode classes that names, blanks and patterns are made of. Each class decides ASCII by
itself and reads the tables only above it.
-/
namespace DocCoverage.Text

def isAsciiLetter (c : Char) : Bool :=
  ('a' ≤ c && c ≤ 'z') || ('A' ≤ c && c ≤ 'Z')

def isAsciiDigit (c : Char) : Bool :=
  '0' ≤ c && c ≤ '9'

def isAscii (c : Char) : Bool := c.toNat < 0x80

/-- The property Alphabetic. -/
def isAlphabetic (c : Char) : Bool :=
  if isAscii c then isAsciiLetter c else alphabeticRanges.covers c.toNat

/-- A decimal digit, the general category Nd. -/
def isDecimal (c : Char) : Bool :=
  if isAscii c then isAsciiDigit c else decimalRanges.covers c.toNat

/-- A letter or a numeral of any kind. -/
def isAlphanumeric (c : Char) : Bool :=
  if isAscii c then isAsciiLetter c || isAsciiDigit c
  else alphabeticRanges.covers c.toNat || decimalRanges.covers c.toNat ||
    numeralRanges.covers c.toNat

/-- A word character: a letter, a decimal digit, a mark, a connector or a join control. -/
def isWord (c : Char) : Bool :=
  if isAscii c then isAsciiLetter c || isAsciiDigit c || c == '_'
  else alphabeticRanges.covers c.toNat || decimalRanges.covers c.toNat || markRanges.covers c.toNat

/-- The property White_Space. -/
def isBlank (c : Char) : Bool :=
  if isAscii c then c == ' ' || (0x09 ≤ c.toNat && c.toNat ≤ 0x0d)
  else c.toNat == 0x85 || c.toNat == 0xa0 || c.toNat == 0x1680 ||
    (0x2000 ≤ c.toNat && c.toNat ≤ 0x200a) || c.toNat == 0x2028 || c.toNat == 0x2029 ||
    c.toNat == 0x202f || c.toNat == 0x205f || c.toNat == 0x3000

/-- A character of a plain identifier: alphanumeric or an underscore. -/
def isIdentifier (c : Char) : Bool := isAlphanumeric c || c == '_'

def isDotted (c : Char) : Bool := isIdentifier c || c == '.'

end DocCoverage.Text
