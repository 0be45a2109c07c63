import DocCoverage.Pattern.CharSet

/-!
# Pattern expressions

The abstract form of a pattern. The order of the branches of an alternation, and whether a
repetition is greedy, decide which of several matches is preferred; they do not change what can
be matched.
-/
namespace DocCoverage.Pattern

/-- A condition on a place between two characters. -/
inductive Look where
  | textStart
  | textEnd
  | lineStart
  | lineEnd
  /-- Line ends in which a carriage return counts as well. -/
  | anyLineStart
  | anyLineEnd
  | wordBoundary (w : CharSet)
  | notWordBoundary (w : CharSet)
  | wordStart (w : CharSet)
  | wordEnd (w : CharSet)
  /-- No word character stands before the place. -/
  | wordStartHalf (w : CharSet)
  /-- No word character stands behind the place. -/
  | wordEndHalf (w : CharSet)
  deriving DecidableEq, Repr

inductive Expr where
  | empty
  | chars (s : CharSet)
  | look (l : Look)
  | cat (a b : Expr)
  | alt (a b : Expr)
  /-- At least `least` copies of the body and at most `most`, if that is given. -/
  | rep (body : Expr) (least : Nat) (most : Option Nat) (greedy : Bool)
  | group (name : Option Text) (body : Expr)
  deriving DecidableEq, Repr

namespace Expr

/-- A sequence of expressions, nested to the left. -/
def sequence : List Expr → Expr
  | [] => empty
  | e :: es => es.foldl cat e

/-- A choice among expressions, the first preferred. -/
def choice : List Expr → Expr
  | [] => empty
  | [e] => e
  | e :: es => alt e (choice es)

end Expr

end DocCoverage.Pattern
