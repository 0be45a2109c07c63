import DocCoverage.Proofs.Outline.Coverage
import DocCoverage.Proofs.Outline.Order
import Mathlib.Data.List.Nodup
import Mathlib.Data.List.Pairwise

/-!
# Collapsed reports

A collapsed report leaves out what stands below a documented node, without looking at what that is.
Nothing unfinished is lost by this, since a node is documented only if everything below it is.
-/
namespace DocCoverage

namespace Outline

variable {gs : GrammarSet} {name : Text} {s : Span} {c d o : Outline}

mutual

def decEq : (o o' : Outline) → Decidable (o = o')
  | ⟨kind, name, start, stop, signature, findings, coverage, tainted, children⟩,
    ⟨kind', name', start', stop', signature', findings', coverage', tainted', children'⟩ =>
    have := decEqAll children children'
    decidable_of_iff (kind = kind' ∧ name = name' ∧ start = start' ∧ stop = stop' ∧
      signature = signature' ∧ findings = findings' ∧ coverage = coverage' ∧ tainted = tainted' ∧
      children = children') (by simp)

def decEqAll : (os os' : List Outline) → Decidable (os = os')
  | [], [] => isTrue rfl
  | [], _ :: _ => isFalse (by simp)
  | _ :: _, [] => isFalse (by simp)
  | o :: os, o' :: os' =>
    have := decEq o o'
    have := decEqAll os os'
    decidable_of_iff (o = o' ∧ os = os') (by simp)

end

instance : DecidableEq Outline := decEq

theorem sizeOf_descendant_lt (h : d ∈ o.descendants) : sizeOf d < sizeOf o := by
  induction o using tree_induction with
  | node o ih =>
    obtain ⟨c, hc, rfl | hd⟩ := mem_descendants.mp h
    · exact sizeOf_child_lt hc
    · exact Nat.lt_trans (ih c hc hd) (sizeOf_child_lt hc)

theorem notMem_descendants (h : d ∈ o.walk) : o ∉ d.descendants := by
  intro hd
  have hlt := sizeOf_descendant_lt hd
  rcases mem_walk.mp h with rfl | h
  · exact Nat.lt_irrefl _ hlt
  · exact Nat.lt_asymm hlt (sizeOf_descendant_lt h)

theorem mem_walk_of_descendant (hd : d ∈ c.descendants) (hc : c ∈ o.walk) : d ∈ o.walk := by
  induction o using tree_induction with
  | node o ih =>
    rcases mem_walk.mp hc with rfl | hc
    · exact mem_walk.mpr (Or.inr hd)
    · rw [descendants_eq_flatMap] at hc
      obtain ⟨e, he, hc⟩ := List.mem_flatMap.mp hc
      rw [mem_walk, descendants_eq_flatMap]
      exact Or.inr (List.mem_flatMap.mpr ⟨e, he, ih e he hc⟩)

/-- In the outline of `o`, no node around `d` is complete. -/
def Exposed (o d : Outline) : Prop :=
  ∀ p ∈ o.walk, d ∈ p.descendants → p.coverage.complete = false

instance (o d : Outline) : Decidable (Exposed o d) :=
  inferInstanceAs (Decidable (∀ p ∈ o.walk, d ∈ p.descendants → p.coverage.complete = false))

/-- Below an incomplete node, what is exposed is exposed in the child around it. -/
theorem exposed_child_iff (hnodup : o.walk.Nodup) (hopen : o.coverage.complete = false)
    (hc : c ∈ o.children) (hd : d ∈ c.walk) : Exposed o d ↔ Exposed c d := by
  rw [walk_eq_flatMap, List.nodup_cons, List.nodup_flatMap] at hnodup
  obtain ⟨-, -, hdisjoint⟩ := hnodup
  constructor
  · intro h p hp
    refine h p ?_
    rw [walk_eq_flatMap]
    exact List.mem_cons_of_mem o (List.mem_flatMap.mpr ⟨c, hc, hp⟩)
  · intro h p hp hdp
    rw [walk_eq_flatMap, List.mem_cons] at hp
    rcases hp with rfl | hp
    · exact hopen
    · obtain ⟨e, he, hp⟩ := List.mem_flatMap.mp hp
      by_cases hce : c = e
      · exact h p (hce ▸ hp) hdp
      · -- a node stands below one child only
        have : Std.Symm (Function.onFun List.Disjoint walk) := ⟨fun _ _ h _ hd he => h he hd⟩
        have hapart : List.Disjoint c.walk e.walk := hdisjoint.forall hc he hce
        exact absurd (mem_walk_of_descendant hdp hp) (hapart hd)

theorem reported_eq_filter (hnodup : o.walk.Nodup) :
    Record.reported true o = o.walk.filter fun d => Exposed o d := by
  induction o using tree_induction with
  | node o ih =>
    have hself : decide (Exposed o o) = true :=
      decide_eq_true fun p hp hop => absurd hop (notMem_descendants hp)
    rw [Record.reported_eq, Bool.true_and, walk_eq_flatMap,
      List.filter_cons_of_pos (p := fun d => Exposed o d) hself]
    refine congrArg _ ?_
    split
    · rename_i hcomplete
      refine (List.filter_eq_nil_iff.mpr fun d hd => ?_).symm
      intro hopen
      rw [← descendants_eq_flatMap] at hd
      have := of_decide_eq_true hopen o (self_mem_walk o) hd
      rw [hcomplete] at this
      cases this
    · rename_i hopen
      rw [List.filter_flatMap]
      refine List.flatMap_congr fun c hc => ?_
      have hchild : c.walk.Nodup := by
        rw [walk_eq_flatMap, List.nodup_cons, List.nodup_flatMap] at hnodup
        exact hnodup.2.1 c hc
      rw [ih c hc hchild]
      refine List.filter_congr fun d hd => decide_eq_decide.mpr ?_
      exact (exposed_child_iff hnodup (Bool.eq_false_iff.mpr hopen) hc hd).symm

theorem complete_of_mem_descendants (hkind : s.kind.isReportable = true)
    (h : (ofSpan gs name s).coverage.complete = true) :
    ∀ d ∈ (ofSpan gs name s).descendants, d.coverage.complete = true := by
  rw [complete_descendants_iff]
  simp only [SpanKind.isReportable, Bool.or_eq_true, beq_iff_eq] at hkind
  rcases hkind with hfile | hdefinition
  · exact (complete_file hfile).mp h
  · exact ((complete_definition hdefinition).mp h).2

end Outline

section

variable {gs : GrammarSet} {options : ScanOptions} {path source : Text} {a : Analysis}
  {o : Outline}

theorem complete_of_not_exposed (h : analyze gs options path source = .ok a)
    (hhidden : ¬Outline.Exposed a.outline o) : o.coverage.complete = true := by
  simp only [Outline.Exposed, not_forall] at hhidden
  obtain ⟨p, hp, hop, hcomplete⟩ := hhidden
  obtain ⟨s, -, hkind, hspan⟩ := exists_span_of_mem_walk h p hp
  rw [Bool.not_eq_false, hspan] at hcomplete
  rw [hspan] at hop
  exact Outline.complete_of_mem_descendants hkind hcomplete o hop

/-- A collapsed report has the records of the nodes around which none is documented, in their order.
What it leaves out is documented, so that it has the same undocumented records as a full one. -/
theorem records_collapsed (h : analyze gs options path source = .ok a) :
    a.records false = a.outline.walk.map a.recordOf ∧
    a.records true = (a.outline.walk.filter fun o =>
      ∀ p ∈ a.outline.walk, o ∈ p.descendants → (a.recordOf p).documented = false).map
        a.recordOf ∧
    (∀ r ∈ a.records false, r ∉ a.records true → r.documented = true) ∧
    (a.records true).filter (!·.documented) = (a.records false).filter (!·.documented) := by
  have hfull := a.records_eq_map_walk
  have hcollapsed : a.records true =
      (a.outline.walk.filter fun o => Outline.Exposed a.outline o).map a.recordOf := by
    rw [Analysis.records, Outline.reported_eq_filter (nodup_walk h)]
    rfl
  refine ⟨hfull, hcollapsed, ?_, ?_⟩
  · rw [hfull, hcollapsed]
    intro r hr hout
    obtain ⟨o, ho, rfl⟩ := List.mem_map.mp hr
    refine complete_of_not_exposed h fun hexposed => hout ?_
    exact List.mem_map.mpr ⟨o, List.mem_filter.mpr ⟨ho, decide_eq_true hexposed⟩, rfl⟩
  · rw [hfull, hcollapsed, List.filter_map, List.filter_map, List.filter_filter]
    refine congrArg _ (List.filter_congr fun o _ => ?_)
    -- an undocumented node is always exposed
    cases hcomplete : o.coverage.complete with
    | true => simp [Analysis.recordOf, Record.ofNode, hcomplete]
    | false =>
      have hexposed : Outline.Exposed a.outline o := by
        by_contra hhidden
        rw [complete_of_not_exposed h hhidden] at hcomplete
        cases hcomplete
      simp [hexposed]

/-- A documented function around another one, and behind it one without a docstring. -/
def foldedSource : Text :=
  "def f():\n    \"\"\"\n    Doc.\n    \"\"\"\n" ++
    "    def g():\n        \"\"\"\n        Doc.\n        \"\"\"\ndef h():\n    pass\n"

/-- The inner function is left out, the undocumented one stays. -/
theorem records_collapsed_folded : ∃ a,
    analyze ⟨.standard, .standard, .standard⟩ {} "m.py" foldedSource = .ok a ∧
      (a.records true).map (·.name) = (["m.py", "f", "h"] : List Text) ∧
      (∃ r ∈ a.records false, r.name = ("g" : Text) ∧ r ∉ a.records true ∧ r.documented = true) ∧
      ((a.records true).filter (!·.documented)).map (·.name) = (["m.py", "h"] : List Text) ∧
      ((a.records false).filter (!·.documented)).map (·.name) = (["m.py", "h"] : List Text) := by
  have htest : (analyze ⟨.standard, .standard, .standard⟩ {} "m.py" foldedSource).toOption.any
      (fun a => (a.records true).map (·.name) == (["m.py", "f", "h"] : List Text) &&
        ((a.records true).filter (!·.documented)).map (·.name) == (["m.py", "h"] : List Text) &&
        (a.records false).any fun r => r.name == ("g" : Text) && !(a.records true).contains r) =
          true := by
    decide +kernel
  obtain ⟨a, ha, htest⟩ := analyze_ok_of_any htest
  simp only [Bool.and_eq_true, beq_iff_eq, List.any_eq_true, Bool.not_eq_true'] at htest
  obtain ⟨⟨hnames, hundocumented⟩, r, hr, hname, hout⟩ := htest
  have hout : r ∉ a.records true := by simpa using hout
  obtain ⟨-, -, hleft, hsame⟩ := records_collapsed ha
  exact ⟨a, ha, hnames, ⟨r, hr, hname, hout, hleft r hr hout⟩, hundocumented,
    hsame ▸ hundocumented⟩

end

end DocCoverage
