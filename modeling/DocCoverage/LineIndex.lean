import DocCoverage.Files.Utf8

/-!
# Line numbers

Every line ends with a line feed. The index of a source holds the byte offsets of its line feeds in
increasing order, and the line of a byte offset is found in it by halving.
-/
namespace DocCoverage

/-- The offsets of the line feeds among bytes that start at an offset. -/
def feedsFrom : (offset : Nat) → Bytes → List Nat
  | _, [] => []
  | n, b :: bs => if b == 0x0a then n :: feedsFrom (n + 1) bs else feedsFrom (n + 1) bs

theorem le_of_mem_feedsFrom {n m : Nat} {bs : Bytes} (h : m ∈ feedsFrom n bs) : n ≤ m := by
  induction bs generalizing n with
  | nil => cases h
  | cons b bs ih =>
    rw [feedsFrom] at h
    split at h
    · rcases List.mem_cons.mp h with rfl | h
      · exact Nat.le_refl m
      · exact Nat.le_of_succ_le (ih h)
    · exact Nat.le_of_succ_le (ih h)

theorem increasing_feedsFrom (n : Nat) (bs : Bytes) : (feedsFrom n bs).Pairwise (· < ·) := by
  induction bs generalizing n with
  | nil => exact List.Pairwise.nil
  | cons b bs ih =>
    rw [feedsFrom]
    split
    · exact List.pairwise_cons.mpr ⟨fun m hm => le_of_mem_feedsFrom hm, ih (n + 1)⟩
    · exact ih (n + 1)

structure LineIndex where
  /-- The offsets of the line feeds. -/
  feeds : Array Nat
  increasing : feeds.toList.Pairwise (· < ·)

namespace LineIndex

def ofText (source : Text) : LineIndex where
  feeds := (feedsFrom 0 (Utf8.encode source)).toArray
  increasing := increasing_feedsFrom 0 (Utf8.encode source)

/-- The line feed at a place of the index lies before an offset. -/
def isBefore (index : LineIndex) (offset place : Nat) : Bool :=
  index.feeds[place]?.any (· < offset)

/-- The number of line feeds before an offset, when all those in front of the place `first` of the
index are before it and none from `first + size` on is. The part in between is halved until a
single line feed is left. -/
def countBefore (index : LineIndex) (offset first size : Nat) : Nat :=
  if 1 < size then
    let half := size / 2
    let first := if index.isBefore offset (first + half) then first + half else first
    countBefore index offset first (size - half)
  else if 0 < size && index.isBefore offset first then first + 1
  else first
termination_by size

/-- The number of the line of a byte offset. -/
def line (index : LineIndex) (offset : Nat) : Nat :=
  index.countBefore offset 0 index.feeds.size + 1

end LineIndex

def lineOf (source : Text) (offset : Nat) : Nat := (LineIndex.ofText source).line offset

end DocCoverage
