import DocCoverage.Text.Trim

/-!
# Pattern flags

Flags change how the rest of a group is read. They are written as letters, those behind a minus
sign being switched off; a letter may stand only once.
-/
namespace DocCoverage.Pattern

structure Flags where
  /-- `i`: characters stand for all their case variants. -/
  caseless : Bool := false
  /-- `m`: `^` and `$` hold at line ends too. -/
  multiLine : Bool := false
  /-- `s`: a dot matches a line feed too. -/
  dotAll : Bool := false
  /-- `U`: repetitions are lazy, and greedy with a question mark. -/
  swapGreed : Bool := false
  /-- `u`: classes are those of Unicode. -/
  unicode : Bool := true
  /-- `R`: a carriage return ends a line too. -/
  crlf : Bool := false
  /-- `x`: blanks and comments between the parts of a pattern are skipped. -/
  verbose : Bool := false
  deriving DecidableEq, Repr

namespace Flags

def set? (f : Flags) (letter : Char) (on : Bool) : Option Flags :=
  match letter with
  | 'i' => some { f with caseless := on }
  | 'm' => some { f with multiLine := on }
  | 's' => some { f with dotAll := on }
  | 'U' => some { f with swapGreed := on }
  | 'u' => some { f with unicode := on }
  | 'R' => some { f with crlf := on }
  | 'x' => some { f with verbose := on }
  | _ => none

def setAll? (f : Flags) (on : Bool) : Text → Option Flags
  | [] => some f
  | c :: t =>
    if c == '-' then setAll? f false t
    else do
      let f ← f.set? c on
      setAll? f on t

/-- No character stands twice. -/
def distinct : Text → Bool
  | [] => true
  | c :: t => !t.contains c && distinct t

/-- The flags after a group of flag letters; none when the letters are not well formed. -/
def update? (f : Flags) (letters : Text) : Option Flags :=
  if distinct letters && letters.getLast? != some '-' then f.setAll? true letters else none

end Flags

/-- The text behind blanks and comments; `comment` holds inside a comment. -/
def skipBlanks : (comment : Bool) → Text → Text
  | _, [] => []
  | true, c :: t => skipBlanks (c != '\n') t
  | false, c :: t =>
    if Text.isBlank c then skipBlanks false t
    else if c == '#' then skipBlanks true t
    else c :: t

/-- Skip blanks and comments if the flags say so. -/
def Flags.skip (f : Flags) (t : Text) : Text := if f.verbose then skipBlanks false t else t

/-- Collect characters of a class, skipping what the flags say behind each of them. -/
def Flags.collect (f : Flags) (p : Char → Bool) : (fuel : Nat) → Text → Text × Text
  | 0, t => ([], t)
  | _ + 1, [] => ([], [])
  | n + 1, c :: t =>
    if p c then
      let (cs, rest) := collect f p n (f.skip t)
      (c :: cs, rest)
    else ([], c :: t)

/-- `collect` as far as the class reaches. -/
def Flags.collectAll (f : Flags) (p : Char → Bool) (t : Text) : Text × Text :=
  f.collect p t.length t

end DocCoverage.Pattern
