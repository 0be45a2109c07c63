import DocCoverage.Proofs.Scan.Openers
import Mathlib.Data.List.Basic

/-!
# The depth limit

The limit on nesting depth decides only whether a scan succeeds, never what it finds: every limit
that the tree of a file keeps gives that tree, and a smaller one is reported at the first span, in
preorder, that lies just beyond it.
-/
namespace DocCoverage

theorem findSome?_congr {α β : Type} {f g : α → Option β} {xs : List α}
    (h : ∀ x ∈ xs, f x = g x) : xs.findSome? f = xs.findSome? g := by
  induction xs with
  | nil => rfl
  | cons x xs ih =>
    rw [List.findSome?_cons, List.findSome?_cons, h x List.mem_cons_self,
      ih fun y hy => h y (List.mem_cons_of_mem x hy)]

namespace Span

mutual

/-- The span and everything below it in preorder, each with its depth; the span itself has the
given depth. -/
def rankedFrom (depth : Nat) : Span → List (Nat × Span)
  | ⟨kind, text, start, stop, indent, unterminated, children⟩ =>
    (depth, ⟨kind, text, start, stop, indent, unterminated, children⟩) ::
      rankedAll (depth + 1) children

def rankedAll (depth : Nat) : List Span → List (Nat × Span)
  | [] => []
  | c :: rest => rankedFrom depth c ++ rankedAll depth rest

end

/-- Everything in a tree with its depth, in preorder. -/
def ranked (tree : Span) : List (Nat × Span) := tree.rankedFrom 0

theorem rankedFrom_eq (depth : Nat) (s : Span) :
    s.rankedFrom depth = (depth, s) :: rankedAll (depth + 1) s.children := by
  cases s
  rw [rankedFrom]

theorem rankedAll_eq_flatMap (depth : Nat) (spans : List Span) :
    rankedAll depth spans = spans.flatMap (rankedFrom depth) := by
  induction spans with
  | nil => rfl
  | cons c spans ih => rw [rankedAll, ih, List.flatMap_cons]

theorem map_rankedFrom (depth : Nat) (s : Span) :
    (s.rankedFrom depth).map Prod.snd = s.preorder := by
  induction s using tree_induction generalizing depth with
  | node s ih =>
    rw [rankedFrom_eq, rankedAll_eq_flatMap, List.map_cons, List.map_flatMap, preorder,
      descendants_eq, forest_eq_flatMap]
    refine congrArg _ (List.flatMap_congr fun c hc => ih c hc _)

/-- The first span, in preorder, that lies the given number of levels below a span. -/
def firstAt : (levels : Nat) → Span → Option Span
  | 0, s => some s
  | n + 1, s => s.children.findSome? (firstAt n)

theorem find?_rankedFrom (n depth : Nat) (s : Span) :
    (s.rankedFrom depth).find? (fun e => e.1 == depth + n) =
      (s.firstAt n).map fun d => (depth + n, d) := by
  induction n generalizing depth s with
  | zero => rw [rankedFrom_eq, List.find?_cons_of_pos (by simp), firstAt]; rfl
  | succ n ih =>
    rw [rankedFrom_eq, List.find?_cons_of_neg (by simp), rankedAll_eq_flatMap, firstAt,
      List.find?_flatMap]
    rw [show depth + (n + 1) = depth + 1 + n by omega]
    induction s.children with
    | nil => rfl
    | cons c cs ihc =>
      rw [List.findSome?_cons, List.findSome?_cons, ih]
      cases c.firstAt n with
      | none => exact ihc
      | some d => rfl

theorem firstAt_isSome_of_mem {n depth : Nat} {s : Span} {e : Nat × Span}
    (h : e ∈ s.rankedFrom depth) (hn : depth + n ≤ e.1) : (s.firstAt n).isSome := by
  induction n generalizing depth s with
  | zero => rfl
  | succ n ih =>
    rw [rankedFrom_eq, rankedAll_eq_flatMap, List.mem_cons, List.mem_flatMap] at h
    rcases h with rfl | ⟨c, hc, he⟩
    · simp only at hn
      omega
    · rw [firstAt, List.findSome?_isSome_iff]
      exact ⟨c, hc, ih he (by omega)⟩

theorem find?_preorder_eq_none {s : Span} {test : Span → Bool} :
    s.preorder.find? test = none ↔
      test s = false ∧ ∀ c ∈ s.children, c.preorder.find? test = none := by
  simp only [List.find?_eq_none]
  constructor
  · intro h
    refine ⟨by simpa using h s s.self_mem_preorder, fun c hc d hd => ?_⟩
    exact h d (mem_preorder.mpr (Or.inr ⟨c, hc, hd⟩))
  · rintro ⟨hs, hc⟩ d hd
    rcases mem_preorder.mp hd with rfl | ⟨c, hmem, hd⟩
    · simp [hs]
    · exact hc c hmem d hd

/-- Where nothing is barred, the only faults are spans for which no level is left. -/
theorem firstFault_of_unbarred {limit n : Nat} {barred : Span → Bool} {s : Span}
    (h : s.preorder.find? barred = none) :
    s.firstFault limit barred n =
      (s.firstAt n).map fun d => .depthExceeded limit d.start := by
  induction n generalizing s with
  | zero => rfl
  | succ n ih =>
    obtain ⟨hs, hkids⟩ := find?_preorder_eq_none.mp h
    rw [firstFault, if_neg (by simp [hs]), firstAt, List.map_findSome?]
    exact findSome?_congr fun c hc => ih (hkids c hc)

/-- Where there are levels enough, the only faults are barred spans. -/
theorem firstFault_of_shallow {limit n : Nat} {barred : Span → Bool} {s : Span}
    (h : s.firstAt n = none) :
    s.firstFault limit barred n =
      (s.preorder.find? barred).map fun d => .openerSplitsCharacter d.start := by
  induction n generalizing s with
  | zero => cases h
  | succ n ih =>
    rw [firstAt, List.findSome?_eq_none_iff] at h
    rw [firstFault, preorder, descendants_eq, forest_eq_flatMap, List.find?_cons]
    cases barred s with
    | true => rfl
    | false =>
      simp only [Bool.false_eq_true, if_false, List.find?_flatMap, List.map_findSome?]
      exact findSome?_congr fun c hc => ih (h c hc)

theorem firstAt_eq_none_of_le {n m : Nat} {s : Span} (h : s.firstAt n = none) (hle : n ≤ m) :
    s.firstAt m = none := by
  induction n generalizing m s with
  | zero => cases h
  | succ n ih =>
    cases m with
    | zero => omega
    | succ m =>
      rw [firstAt, List.findSome?_eq_none_iff] at h ⊢
      exact fun c hc => ih (h c hc) (by omega)

/-- A scan without a fault has levels enough and nothing barred. -/
theorem firstFault_eq_none_iff (limit : Nat) {n : Nat} {barred : Span → Bool} {s : Span} :
    s.firstFault limit barred n = none ↔
      s.firstAt n = none ∧ s.preorder.find? barred = none := by
  constructor
  · intro h
    induction n generalizing s with
    | zero => cases h
    | succ n ih =>
      rw [firstFault] at h
      split at h
      · cases h
      · rename_i hs
        rw [List.findSome?_eq_none_iff] at h
        refine ⟨?_, find?_preorder_eq_none.mpr ⟨by simpa using hs, fun c hc => (ih (h c hc)).2⟩⟩
        rw [firstAt, List.findSome?_eq_none_iff]
        exact fun c hc => (ih (h c hc)).1
  · rintro ⟨hshallow, hfree⟩
    rw [firstFault_of_shallow hshallow, hfree]
    rfl

theorem outcome_eq_ok_iff {limit : Nat} {barred : Span → Bool} {tree s : Span} :
    tree.outcome limit barred = .ok s ↔
      tree = s ∧ tree.firstAt (limit + 1) = none ∧ tree.preorder.find? barred = none := by
  rw [← firstFault_eq_none_iff limit, outcome]
  cases tree.firstFault limit barred (limit + 1) with
  | none => simp
  | some e => simp

/-- With levels enough the outcome hangs on the barred spans alone. -/
theorem outcome_of_shallow {limit : Nat} {barred : Span → Bool} {tree : Span}
    (h : tree.firstAt (limit + 1) = none) :
    tree.outcome limit barred =
      match tree.preorder.find? barred with
      | none => .ok tree
      | some s => .error (.openerSplitsCharacter s.start) := by
  rw [outcome, firstFault_of_shallow h]
  cases tree.preorder.find? barred <;> rfl

/-- With nothing barred the outcome hangs on the levels alone. -/
theorem outcome_of_unbarred {limit : Nat} {barred : Span → Bool} {tree : Span}
    (h : tree.preorder.find? barred = none) :
    tree.outcome limit barred =
      match tree.firstAt (limit + 1) with
      | none => .ok tree
      | some s => .error (.depthExceeded limit s.start) := by
  rw [outcome, firstFault_of_unbarred h]
  cases tree.firstAt (limit + 1) <;> rfl

theorem find?_ranked (n : Nat) (tree : Span) :
    tree.ranked.find? (fun e => e.1 == n) = (tree.firstAt n).map fun s => (n, s) := by
  have h := find?_rankedFrom n 0 tree
  rwa [Nat.zero_add] at h

end Span

/-- A tree of whole openers has no more levels below the file than the file has bytes. -/
theorem firstAt_whole_tree {source : Text} {tree : Span} {n : Nat}
    (h : Rule.whole.scan { maxDepth := Text.byteLength source } source = .ok tree)
    (hn : Text.byteLength source < n) : tree.firstAt n = none := by
  have hout : Rule.whole.scan { maxDepth := Text.byteLength source } source =
      tree.outcome (Text.byteLength source) fun _ => false :=
    RuleTable.scan_eq_outcome_self Rule.whole_regular (fun _ => rfl) h
  exact Span.firstAt_eq_none_of_le (Span.outcome_eq_ok_iff.mp (hout.symm.trans h)).2.1 hn

/-- Every depth limit that the tree of a file keeps gives that tree, and with a smaller one the scan
fails at the first span just beyond it. Raising the limit never changes a finished answer. -/
theorem scan_depth_limit (source : Text) :
    (∀ d d' tree, d ≤ d' → scan { maxDepth := d } source = .ok tree →
      scan { maxDepth := d' } source = .ok tree) ∧
    ((∀ offset, scan { maxDepth := Text.byteLength source } source ≠
        .error (.openerSplitsCharacter offset)) →
      ∃ tree : Span, tree.ranked.map Prod.snd = tree.preorder ∧
        (∀ d, Text.byteLength source ≤ d → scan { maxDepth := d } source = .ok tree) ∧
        ∀ d, ((∀ e ∈ tree.ranked, e.1 ≤ d) → scan { maxDepth := d } source = .ok tree) ∧
          ((∃ e ∈ tree.ranked, d < e.1) →
            ∃ s, tree.ranked.find? (fun e => e.1 == d + 1) = some (d + 1, s) ∧
              scan { maxDepth := d } source = .error (.depthExceeded d s.start))) := by
  obtain ⟨tree, hwhole, hscan⟩ := exists_whole_tree source
  have hshallow : ∀ n, Text.byteLength source < n → tree.firstAt n = none := fun n hn =>
    firstAt_whole_tree (hwhole _ (fun _ => rfl) (Nat.le_refl _)) hn
  constructor
  · intro d d' t hle h
    rw [hscan _ (fun _ => rfl), Span.outcome_eq_ok_iff] at h ⊢
    exact ⟨h.1, Span.firstAt_eq_none_of_le h.2.1 (Nat.succ_le_succ hle), h.2.2⟩
  · intro hsafe
    have hfree : tree.preorder.find? Span.splitsCharacter = none := by
      cases hbad : tree.preorder.find? Span.splitsCharacter with
      | none => rfl
      | some s =>
        refine absurd ?_ (hsafe s.start)
        rw [hscan _ (fun _ => rfl), Span.outcome_of_shallow (hshallow _ (Nat.lt_succ_self _)), hbad]
    have hlimit : ∀ d, scan { maxDepth := d } source =
        match tree.firstAt (d + 1) with
        | none => .ok tree
        | some s => .error (.depthExceeded d s.start) := fun d => by
      rw [hscan _ (fun _ => rfl), Span.outcome_of_unbarred hfree]
    refine ⟨tree, tree.map_rankedFrom 0, fun d hd => ?_, fun d => ⟨fun hall => ?_, ?_⟩⟩
    · rw [hlimit, hshallow _ (Nat.lt_succ_of_le hd)]
    · rw [hlimit]
      cases hdeep : tree.firstAt (d + 1) with
      | none => rfl
      | some s =>
        have hfind := Span.find?_ranked (d + 1) tree
        rw [hdeep] at hfind
        have hle : d + 1 ≤ d := hall _ (List.mem_of_find?_eq_some hfind)
        omega
    · rintro ⟨e, he, hlt⟩
      have hsome : (tree.firstAt (d + 1)).isSome := Span.firstAt_isSome_of_mem he (by omega)
      obtain ⟨s, hs⟩ := Option.isSome_iff_exists.mp hsome
      refine ⟨s, ?_, by rw [hlimit, hs]⟩
      rw [Span.find?_ranked, hs]
      rfl

/-- Brackets in brackets, with a limit of one level for the outer pair only. -/
theorem scan_depth_limit_brackets :
    (∀ offset, scan { maxDepth := Text.byteLength "f((é))" } "f((é))" ≠
      .error (.openerSplitsCharacter offset)) ∧
    ∃ tree s : Span, (∀ d, 7 ≤ d → scan { maxDepth := d } "f((é))" = .ok tree) ∧
      tree.ranked.find? (fun e => e.1 == 2) = some (2, s) ∧
      scan { maxDepth := 1 } "f((é))" = .error (.depthExceeded 1 s.start) := by
  have hdone : (scan { maxDepth := Text.byteLength "f((é))" } "f((é))").toOption.isSome = true := by
    decide +kernel
  have hfail : (scan { maxDepth := 1 } "f((é))").toOption.isSome = false := by decide +kernel
  have hsafe : ∀ offset, scan { maxDepth := Text.byteLength "f((é))" } "f((é))" ≠
      .error (.openerSplitsCharacter offset) := by
    intro offset h
    rw [h] at hdone
    cases hdone
  obtain ⟨tree, -, hbig, hlimit⟩ := (scan_depth_limit "f((é))").2 hsafe
  have hdeep : ∃ e ∈ tree.ranked, 1 < e.1 := by
    by_contra hall
    simp only [not_exists, not_and, Nat.not_lt] at hall
    rw [(hlimit 1).1 hall] at hfail
    cases hfail
  obtain ⟨s, hfind, herror⟩ := (hlimit 1).2 hdeep
  exact ⟨hsafe, tree, s, hbig, hfind, herror⟩

end DocCoverage
