import DocCoverage.Text.Basic

/-!
# UTF-8

Files hold bytes. Decoding stops at the first byte that cannot go on, and says how many bytes of a
character were read before it, or that the bytes ended inside a character.
-/
namespace DocCoverage

abbrev Bytes := List UInt8

namespace Utf8

inductive Fault where
  /-- The `length` bytes at `index` are no character and begin none. -/
  | invalid (length index : Nat)
  /-- The bytes end inside the character at `index`. -/
  | incomplete (index : Nat)
  deriving DecidableEq, Repr

def Fault.message : Fault → Text
  | invalid length index =>
    "invalid utf-8 sequence of " ++ Text.ofNat length ++ " bytes from index " ++ Text.ofNat index
  | incomplete index => "incomplete utf-8 byte sequence from index " ++ Text.ofNat index

def isTail (b : Nat) : Bool := 0x80 ≤ b && b ≤ 0xbf

/-- The bytes that may follow the first byte of a character of three or four bytes. -/
def isSecond (first b : Nat) : Bool :=
  if first == 0xe0 then 0xa0 ≤ b && b ≤ 0xbf
  else if first == 0xed then 0x80 ≤ b && b ≤ 0x9f
  else if first == 0xf0 then 0x90 ≤ b && b ≤ 0xbf
  else if first == 0xf4 then 0x80 ≤ b && b ≤ 0x8f
  else isTail b

/-- The number of bytes of a character with the given first byte; zero if it is no first byte. -/
def width (first : Nat) : Nat :=
  if first < 0x80 then 1
  else if 0xc2 ≤ first && first ≤ 0xdf then 2
  else if 0xe0 ≤ first && first ≤ 0xef then 3
  else if 0xf0 ≤ first && first ≤ 0xf4 then 4
  else 0

/-- Decode from an index on; `fuel` bounds the number of characters. -/
def decodeFrom : (fuel index : Nat) → Bytes → Except Fault Text
  | 0, _, _ => .ok []
  | _ + 1, _, [] => .ok []
  | n + 1, index, b0 :: rest =>
    let x0 := b0.toNat
    match width x0 with
    | 1 => (decodeFrom n (index + 1) rest).map (Char.ofNat x0 :: ·)
    | 2 =>
      match rest with
      | [] => .error (.incomplete index)
      | b1 :: rest =>
        let x1 := b1.toNat
        if !isTail x1 then .error (.invalid 1 index)
        else
          (decodeFrom n (index + 2) rest).map
            (Char.ofNat ((x0 - 0xc0) * 0x40 + (x1 - 0x80)) :: ·)
    | 3 =>
      match rest with
      | [] => .error (.incomplete index)
      | b1 :: rest =>
        let x1 := b1.toNat
        if !isSecond x0 x1 then .error (.invalid 1 index)
        else
          match rest with
          | [] => .error (.incomplete index)
          | b2 :: rest =>
            let x2 := b2.toNat
            if !isTail x2 then .error (.invalid 2 index)
            else
              (decodeFrom n (index + 3) rest).map
                (Char.ofNat ((x0 - 0xe0) * 0x1000 + (x1 - 0x80) * 0x40 + (x2 - 0x80)) :: ·)
    | 4 =>
      match rest with
      | [] => .error (.incomplete index)
      | b1 :: rest =>
        let x1 := b1.toNat
        if !isSecond x0 x1 then .error (.invalid 1 index)
        else
          match rest with
          | [] => .error (.incomplete index)
          | b2 :: rest =>
            let x2 := b2.toNat
            if !isTail x2 then .error (.invalid 2 index)
            else
              match rest with
              | [] => .error (.incomplete index)
              | b3 :: rest =>
                let x3 := b3.toNat
                if !isTail x3 then .error (.invalid 3 index)
                else
                  (decodeFrom n (index + 4) rest).map
                    (Char.ofNat ((x0 - 0xf0) * 0x40000 + (x1 - 0x80) * 0x1000 +
                      (x2 - 0x80) * 0x40 + (x3 - 0x80)) :: ·)
    | _ => .error (.invalid 1 index)

def decode (bs : Bytes) : Except Fault Text := decodeFrom bs.length 0 bs

def encodeChar (c : Char) : Bytes :=
  let n := c.toNat
  if n < 0x80 then [n.toUInt8]
  else if n < 0x800 then [(0xc0 + n / 0x40).toUInt8, (0x80 + n % 0x40).toUInt8]
  else if n < 0x10000 then
    [(0xe0 + n / 0x1000).toUInt8, (0x80 + n / 0x40 % 0x40).toUInt8, (0x80 + n % 0x40).toUInt8]
  else
    [(0xf0 + n / 0x40000).toUInt8, (0x80 + n / 0x1000 % 0x40).toUInt8,
     (0x80 + n / 0x40 % 0x40).toUInt8, (0x80 + n % 0x40).toUInt8]

def encode (t : Text) : Bytes := t.flatMap encodeChar

end Utf8

end DocCoverage
