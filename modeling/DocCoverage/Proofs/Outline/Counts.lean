import DocCoverage.Proofs.Grammar.Standard
import DocCoverage.Proofs.Outline.Walk
import DocCoverage.Proofs.Scan.Depth
import DocCoverage.Proofs.Scan.Nesting
import Mathlib.Algebra.Order.Ring.Nat

/-!
# Every statement is counted once

A node of the outline counts the return and yield statements that stand directly in its definition,
while the nodes themselves are found through decorators and all other spans. As statements stand
only in callables, which all have a node, the counts of the nodes add up to the number of statements
in the tree.
-/
namespace DocCoverage

namespace Span

theorem countP_descendants (test : Span → Bool) (s : Span) :
    s.descendants.countP test =
      s.children.countP test + (s.children.map fun c => c.descendants.countP test).sum := by
  rw [descendants_eq, forest_eq_flatMap]
  induction s.children with
  | nil => rfl
  | cons c cs ih =>
    simp only [List.flatMap_cons, List.countP_append, ih, preorder, List.countP_cons, List.map_cons,
      List.sum_cons]
    omega

end Span

/-- A number of a signature that counts the children of a kind, in callables only. -/
def Signature.CountsKind (count : Signature → Nat) (kind : SpanKind) : Prop :=
  ∀ s, count (ofSpan s) = if s.kind.isCallable then countOf s kind else 0

theorem Signature.countsKind_returns : CountsKind (·.returns) .returnStmt := by
  intro s
  unfold ofSpan
  cases s.kind <;> rfl

theorem Signature.countsKind_yields : CountsKind (·.yields) .yieldStmt := by
  intro s
  unfold ofSpan
  cases s.kind <;> rfl

namespace Outline

variable {gs : GrammarSet} {name : Text} {s : Span} {count : Signature → Nat} {kind : SpanKind}

/-- The sum of a number over the nodes and everything below them. -/
def total (count : Signature → Nat) (os : List Outline) : Nat :=
  ((walkAll os).map fun o => count o.signature).sum

theorem total_append (count : Signature → Nat) (os os' : List Outline) :
    total count (os ++ os') = total count os + total count os' := by
  simp only [total, walkAll_eq_flatMap, List.flatMap_append, List.map_append, List.sum_append]

theorem total_flatMap (count : Signature → Nat) (f : Span → List Outline) (spans : List Span) :
    total count (spans.flatMap f) = (spans.map fun c => total count (f c)).sum := by
  induction spans with
  | nil => rfl
  | cons c spans ih => rw [List.flatMap_cons, total_append, ih, List.map_cons, List.sum_cons]

theorem total_ofSpan (gs : GrammarSet) (name : Text) (s : Span) :
    total count [ofSpan gs name s] =
      count (Signature.ofSpan s) + total count (nested gs s) := by
  simp only [total, walkAll, List.append_nil, walk_eq, List.map_cons, List.sum_cons]
  rfl

/-- The nodes below a span count what stands below it, except for its own children. -/
theorem total_nested (gs : GrammarSet) (hcount : Signature.CountsKind count kind)
    (hplace : ∀ q ∈ s.preorder, ∀ c ∈ q.children, c.kind = kind → q.kind.isCallable = true) :
    total count (nested gs s) + Signature.countOf s kind =
      s.descendants.countP (·.kind == kind) := by
  induction s using Span.tree_induction with
  | node s ih =>
    have hchild : ∀ c ∈ s.children,
        total count (if c.kind.isDefinition then [ofSpan gs c.name c] else nested gs c) =
          c.descendants.countP (·.kind == kind) := by
      intro c hc
      have hbelow := ih c hc fun q hq => hplace q (Span.mem_preorder.mpr (Or.inr ⟨c, hc, hq⟩))
      have hself := hplace c (Span.child_mem_preorder hc)
      -- a child that is not callable has nothing to count directly in it
      have hnone : c.kind.isCallable = false → Signature.countOf c kind = 0 := by
        intro hcallable
        refine List.countP_eq_zero.mpr fun d hd hkind => ?_
        rw [hself d hd (eq_of_beq hkind)] at hcallable
        cases hcallable
      split
      · rw [total_ofSpan, hcount c, ← hbelow]
        split
        · omega
        · rename_i hcallable
          have := hnone (by simpa using hcallable)
          omega
      · rename_i hdefinition
        have := hnone (by revert hdefinition; cases c.kind <;> decide)
        omega
    rw [nested_eq, nestedIn_eq_flatMap, total_flatMap, List.map_congr_left hchild,
      Span.countP_descendants, Signature.countOf]
    omega

theorem sum_walk_ofSpan (hcount : Signature.CountsKind count kind) (hfile : s.kind = .file)
    (hkind : kind ≠ .file)
    (hplace : ∀ q ∈ s.preorder, ∀ c ∈ q.children, c.kind = kind → q.kind.isCallable = true) :
    ((ofSpan gs name s).walk.map fun o => count o.signature).sum =
      s.preorder.countP (·.kind == kind) := by
  have hself : count (Signature.ofSpan s) = 0 := by rw [hcount, hfile]; rfl
  have hdirect : Signature.countOf s kind = 0 := by
    refine List.countP_eq_zero.mpr fun c hc hk => ?_
    have hcallable := hplace s s.self_mem_preorder c hc (eq_of_beq hk)
    rw [hfile] at hcallable
    cases hcallable
  have hwalk : ((ofSpan gs name s).walk.map fun o => count o.signature).sum =
      total count [ofSpan gs name s] := by
    simp only [total, walkAll, List.append_nil]
  have hbelow := total_nested gs hcount hplace
  rw [hwalk, total_ofSpan, Span.preorder, List.countP_cons_of_neg (by simp [hfile, hkind.symm])]
  omega

end Outline

section

variable {options : ScanOptions} {source : Text} {tree : Span}

/-- In a scanned tree everything stands where its kind belongs, and the nodes of the outline count
each of its return and yield statements once. -/
theorem scan_nesting (h : scan options source = .ok tree) :
    tree.kind = .file ∧ (∀ s ∈ tree.preorder, s.Legal) ∧
    ∀ gs name,
      ((Outline.ofSpan gs name tree).walk.map fun o => o.signature.returns).sum =
        tree.preorder.countP (·.kind == .returnStmt) ∧
      ((Outline.ofSpan gs name tree).walk.map fun o => o.signature.yields).sum =
        tree.preorder.countP (·.kind == .yieldStmt) := by
  have hlegal : ∀ s ∈ tree.preorder, s.Legal := fun s hs => scan_legal h hs
  have hfile := (file_stop h).1
  have hplace : ∀ kind : SpanKind, kind.isStatement = true → ∀ q ∈ tree.preorder,
      ∀ c ∈ q.children, c.kind = kind → q.kind.isCallable = true := by
    rintro _ hkind q hq c hc rfl
    exact (hlegal q hq).statement c hc hkind
  exact ⟨hfile, hlegal, fun gs name =>
    ⟨Outline.sum_walk_ofSpan Signature.countsKind_returns hfile (by decide) (hplace _ rfl),
      Outline.sum_walk_ofSpan Signature.countsKind_yields hfile (by decide) (hplace _ rfl)⟩⟩

/-- Statements below a classmethod and a property, and in a function nested in one. -/
def decoratedSource : Text :=
  "class A:\n @classmethod\n def f(c):\n  def g():\n   yield 1\n  return g\n" ++
    " @property\n def h(s):\n  return 2\n"

theorem scan_nesting_decorated : ∃ tree, scan {} decoratedSource = .ok tree ∧
    tree.preorder.countP (·.kind == .returnStmt) = 2 ∧
    (∃ s ∈ tree.preorder, s.kind = .decorator ∧ s.name = ("classmethod" : Text) ∧ s.Legal ∧
      ∃ c ∈ s.children, c.kind = .classMethod) ∧
    ((Outline.ofSpan ⟨.standard, .standard, .standard⟩ "m.py" tree).walk.map
      fun o => o.signature.returns).sum = 2 := by
  have htest : (scan {} decoratedSource).toOption.any (fun tree =>
      tree.preorder.countP (·.kind == .returnStmt) == 2 &&
      tree.preorder.any fun s => s.kind == .decorator && s.name == ("classmethod" : Text) &&
        s.children.any (·.kind == .classMethod)) = true := by decide +kernel
  obtain ⟨tree, htree, htest⟩ := scan_ok_of_any htest
  simp only [Bool.and_eq_true, beq_iff_eq, List.any_eq_true] at htest
  obtain ⟨hreturns, s, hs, ⟨hkind, hname⟩, c, hc, hmethod⟩ := htest
  obtain ⟨-, hlegal, hcounts⟩ := scan_nesting htree
  exact ⟨tree, htree, hreturns, ⟨s, hs, hkind, hname, hlegal s hs, c, hc, hmethod⟩,
    (hcounts _ _).1.trans hreturns⟩

end

end DocCoverage
