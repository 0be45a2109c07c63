/-!
# Text and its byte offsets

A text is a list of characters, so that reading it is recursion on the data. Positions are
counted in UTF-8 bytes; a cut between two characters is written with the number of bytes in
front of it, and a cut inside a character has no answer.
-/
namespace DocCoverage

/-- Source text, names, paths and reports are all lists of characters. -/
abbrev Text := List Char

instance : Coe String Text := ⟨String.toList⟩

namespace Text

/-- The number of UTF-8 bytes of a text. -/
def byteLength : Text → Nat
  | [] => 0
  | c :: t => c.utf8Size + byteLength t

/-- Cut a text after `n` bytes. There is no answer beyond its end or inside a character. -/
def splitAt? : Nat → Text → Option (Text × Text)
  | 0, t => some ([], t)
  | _ + 1, [] => none
  | n + 1, c :: t =>
    if c.utf8Size ≤ n + 1 then
      (splitAt? (n + 1 - c.utf8Size) t).map fun (a, b) => (c :: a, b)
    else none

/-- The characters from byte `first` up to byte `last`, when both are cuts between characters
and stand in this order. -/
def slice? (t : Text) (first last : Nat) : Option Text := do
  if last < first then none
  let (_, rest) ← splitAt? first t
  let (middle, _) ← splitAt? (last - first) rest
  some middle

/-- `slice?` with the empty text where there is no answer. -/
def slice (t : Text) (first last : Nat) : Text := (slice? t first last).getD []

def ofNat (n : Nat) : Text := Nat.toDigits 10 n

/-- The texts joined with a separator between neighbours. -/
def joinWith (sep : Text) : List Text → Text
  | [] => []
  | [t] => t
  | t :: ts => t ++ sep ++ joinWith sep ts

/-- The pieces between the occurrences of a separator character; always at least one. -/
def splitOn (sep : Char) : Text → List Text
  | [] => [[]]
  | c :: t =>
    match splitOn sep t with
    | [] => [[c]]
    | p :: ps => if c == sep then [] :: p :: ps else (c :: p) :: ps

/-- The text behind a given beginning, if it has that beginning. -/
def dropPrefix? : (head t : Text) → Option Text
  | [], t => some t
  | _ :: _, [] => none
  | c :: head, d :: t => if c == d then dropPrefix? head t else none

/-- The text behind a given beginning, or the whole text if it begins otherwise. -/
def dropPrefix (head t : Text) : Text := (dropPrefix? head t).getD t

def startsWith (t head : Text) : Bool := (dropPrefix? head t).isSome

/-- The text without the characters of a class at its end. -/
def dropEndWhile (p : Char → Bool) (t : Text) : Text := (t.reverse.dropWhile p).reverse

/-- The text in front of the first character of a class and the rest from that character on. -/
def breakAt (p : Char → Bool) (t : Text) : Text × Text :=
  (t.takeWhile fun c => !p c, t.dropWhile fun c => !p c)

end Text

end DocCoverage
