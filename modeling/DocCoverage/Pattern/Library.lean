import DocCoverage.Pattern.Expr

/-!
# The pattern library

Two things about patterns are left to a library: which sets of characters the Unicode properties
name, and how many bytes a compiled pattern takes. Of the second it is only known that the parts of
a pattern bound it, a repetition counting once for each copy of its body.
-/
namespace DocCoverage.Pattern

/-- The sets that properties name. The names come without case, spaces, hyphens and underscores. -/
abbrev Properties := Text → Option CharSet

/-- More bytes than matching a set takes. -/
def CharSet.weight : CharSet → Nat
  | ranges rs => 0x1000 * (rs.length + 1)
  | word | decimal | blank => 0x40000
  | caseless s => 2 * s.weight + 0x100000
  | compl s => s.weight + 0x1000
  | union a b | inter a b => a.weight + b.weight

namespace Expr

/-- More bytes than a pattern takes with its repetitions written out. -/
def weight : Expr → Nat
  | empty | look _ => 0x200
  | chars s => s.weight
  | cat a b => a.weight + b.weight
  | alt a b => a.weight + b.weight + 0x200
  | rep body least most _ => (body.weight + 0x200) * max 1 (most.getD least) + 0x200
  | group _ body => body.weight + 0x200

end Expr

structure Library where
  property? : Properties
  /-- The bytes that a compiled pattern takes. -/
  size : Expr → Nat
  size_le : ∀ e, size e ≤ e.weight

namespace Library

/-- The most common properties. -/
def commonProperty? (name : Text) : Option CharSet :=
  let among (names : List Text) : Bool := names.contains name
  if among ["alphabetic", "alpha"] then
    some (.union (.ranges [(0x41, 0x5a), (0x61, 0x7a)]) (.ranges Text.alphabeticRanges))
  else if among ["nd", "decimalnumber", "digit"] then some .decimal
  else if among ["whitespace", "wspace", "space"] then some .blank
  else if among ["any"] then some .all
  else if among ["ascii"] then some (.ranges [(0, 0x7f)])
  else none

end Library

/-- An estimate of the bytes that matching a set takes. -/
def CharSet.bytes : CharSet → Nat
  | ranges rs => 40 * rs.length + 24
  | word => 48000
  | decimal => 6000
  | blank => 1200
  | caseless s => 2 * s.bytes
  | compl s => s.bytes + 400
  | union a b | inter a b => a.bytes + b.bytes

/-- An estimate of the bytes that a pattern takes with its repetitions written out. -/
def Expr.bytes : Expr → Nat
  | empty | look _ => 32
  | chars s => s.bytes
  | cat a b => a.bytes + b.bytes
  | alt a b => a.bytes + b.bytes + 48
  | rep body least most _ => (body.bytes + 48) * max 1 (most.getD least) + 48
  | group _ body => body.bytes + 64

theorem CharSet.bytes_le_weight (s : CharSet) : s.bytes ≤ s.weight := by
  induction s with
  | ranges rs =>
    simp only [bytes, weight]
    omega
  | word | decimal | blank => decide
  | caseless s ih | compl s ih =>
    simp only [bytes, weight]
    omega
  | union a b iha ihb | inter a b iha ihb => exact Nat.add_le_add iha ihb

theorem Expr.bytes_le_weight (e : Expr) : e.bytes ≤ e.weight := by
  induction e with
  | empty => decide
  | look l => exact (by decide : 32 ≤ 0x200)
  | chars s => exact s.bytes_le_weight
  | cat a b iha ihb => exact Nat.add_le_add iha ihb
  | alt a b iha ihb => exact Nat.add_le_add (Nat.add_le_add iha ihb) (by decide)
  | rep body least most greedy ih =>
    exact Nat.add_le_add (Nat.mul_le_mul_right _ (Nat.add_le_add ih (by decide))) (by decide)
  | group name body ih => exact Nat.add_le_add ih (by decide)

/-- A library that knows the most common properties and estimates sizes. -/
def Library.common : Library where
  property? := commonProperty?
  size := Expr.bytes
  size_le := Expr.bytes_le_weight

end DocCoverage.Pattern
