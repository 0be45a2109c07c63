import DocCoverage.Text.Basic
import DocCoverage.Text.CharClass
import DocCoverage.Text.CaseFold

/-!
# Sets of characters in patterns

A set is kept as it is written: ranges and named classes under the set operations. Membership is
decided by recursion on it, so no set is ever listed out.
-/
namespace DocCoverage.Pattern

inductive CharSet where
  | ranges (rs : Text.Ranges)
  | word
  | decimal
  | blank
  /-- Every character that has a case variant in the set. -/
  | caseless (s : CharSet)
  | compl (s : CharSet)
  | union (a b : CharSet)
  | inter (a b : CharSet)
  deriving DecidableEq, Repr

namespace CharSet

def empty : CharSet := ranges []

def single (c : Char) : CharSet := ranges [(c.toNat, c.toNat)]

def ofList (cs : Text) : CharSet := ranges (cs.map fun c => (c.toNat, c.toNat))

def all : CharSet := compl empty

def diff (a b : CharSet) : CharSet := inter a (compl b)

def symmDiff (a b : CharSet) : CharSet := union (diff a b) (diff b a)

def contains : CharSet → Char → Bool
  | ranges rs, c => rs.covers c.toNat
  | word, c => Text.isWord c
  | decimal, c => Text.isDecimal c
  | blank, c => Text.isBlank c
  | caseless s, c => (Text.caseVariants c.toNat).any fun n => s.contains (Char.ofNat n)
  | compl s, c => !s.contains c
  | union a b, c => a.contains c || b.contains c
  | inter a b, c => a.contains c && b.contains c

end CharSet

end DocCoverage.Pattern
