import DocCoverage.Number.Shortest
import DocCoverage.Text.Order

/-!
# JSON values

Integers that fit 64 bits are kept exactly, every other number as a double precision magnitude
with its sign. The members of an object that was read are in increasing order of their keys.
-/
namespace DocCoverage

inductive JsonNumber where
  | nat (n : Nat)
  /-- The negative integer `-n`. -/
  | negative (n : Nat)
  | real (negative : Bool) (x : Binary64)
  deriving DecidableEq, Repr

inductive Json where
  | null
  | bool (b : Bool)
  | number (n : JsonNumber)
  | text (t : Text)
  | array (items : List Json)
  | object (members : List (Text × Json))

namespace JsonNumber

def render : JsonNumber → Text
  | nat n => Text.ofNat n
  | negative n => "-" ++ Text.ofNat n
  | real true x => "-" ++ x.text
  | real false x => x.text

end JsonNumber

namespace Json

def hexDigit (n : Nat) : Char := Nat.digitChar n

/-- A character inside a string. -/
def escape (c : Char) : Text :=
  if c == '"' then "\\\""
  else if c == '\\' then "\\\\"
  else if c == '\n' then "\\n"
  else if c == '\r' then "\\r"
  else if c == '\t' then "\\t"
  else if c == '\x08' then "\\b"
  else if c == '\x0c' then "\\f"
  else if c.toNat < 0x20 then "\\u00" ++ [hexDigit (c.toNat / 16), hexDigit (c.toNat % 16)]
  else [c]

def quote (t : Text) : Text := "\"" ++ t.flatMap escape ++ "\""

def newline (level : Nat) : Text := '\n' :: List.replicate (2 * level) ' '

mutual

/-- The value over several lines, two spaces deeper on each level. -/
def render (level : Nat) : Json → Text
  | null => "null"
  | bool true => "true"
  | bool false => "false"
  | number n => n.render
  | text t => quote t
  | array [] => "[]"
  | array (v :: vs) =>
    "[" ++ newline (level + 1) ++ render (level + 1) v ++ renderItems (level + 1) vs ++
      newline level ++ "]"
  | object [] => ['\x7b', '\x7d']
  | object ((k, v) :: ms) =>
    ['\x7b'] ++ newline (level + 1) ++ quote k ++ ": " ++ render (level + 1) v ++
      renderMembers (level + 1) ms ++ newline level ++ ['\x7d']

/-- The further items of an array. -/
def renderItems (level : Nat) : List Json → Text
  | [] => []
  | v :: vs => "," ++ newline level ++ render level v ++ renderItems level vs

/-- The further members of an object. -/
def renderMembers (level : Nat) : List (Text × Json) → Text
  | [] => []
  | (k, v) :: ms =>
    "," ++ newline level ++ quote k ++ ": " ++ render level v ++ renderMembers level ms

end

/-- The whole value as a file. -/
def pretty (v : Json) : Text := v.render 0 ++ "\n"

end Json

end DocCoverage
