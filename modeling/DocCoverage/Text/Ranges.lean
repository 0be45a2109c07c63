/-!
# Sets of characters as code point ranges

A set is a list of inclusive ranges of code points; a code point belongs to it when one of the
ranges covers it.
-/
namespace DocCoverage.Text

abbrev Ranges := List (Nat × Nat)

def Ranges.covers (rs : Ranges) (n : Nat) : Bool :=
  rs.any fun r => r.1 ≤ n && n ≤ r.2

theorem Ranges.covers_iff (rs : Ranges) (n : Nat) :
    rs.covers n = true ↔ ∃ r ∈ rs, r.1 ≤ n ∧ n ≤ r.2 := by
  simp [Ranges.covers, List.any_eq_true]

end DocCoverage.Text
