import DocCoverage.Proofs.Outline.Order
import DocCoverage.Proofs.Scan.Nesting
import DocCoverage.Proofs.Span.Move
import DocCoverage.Proofs.Text.Sorted
import Mathlib.Data.List.Nodup
import Mathlib.Data.List.Pairwise

/-!
# Attributes belong to the nearest class

A class declares the properties among its definitions, and the names that are assigned in its body
or reached through `self` below it, unless they are names of its methods. A name reached through
`self` counts for the nearest class around it and for no other one, wherever that class stands.
-/
namespace DocCoverage

namespace Span

/-- The class is the nearest one around the span. -/
structure NearestClass (k a : Span) : Prop where
  isClass : k.kind = .classDef
  below : a ∈ k.descendants
  nearest : ∀ q ∈ k.descendants, q.kind = .classDef → a ∉ q.descendants

/-- The span stands under a decorator of the given name, directly in a body. -/
def Decorated (body : Span) (name : Text) (c : Span) : Prop :=
  ∃ d ∈ body.children, d.kind = .decorator ∧ d.name = name ∧ c ∈ d.children

/-- The name of a property of a class. -/
def NamesProperty (k : Span) (n : Text) : Prop :=
  ∃ c, k.Decorated "property" c ∧ c.kind.isDefinition = true ∧ c.name = n

/-- The name of a method of a class, a plain one or a classmethod. -/
def NamesMethod (k : Span) (n : Text) : Prop :=
  (∃ c ∈ k.children, c.kind = .method ∧ c.name = n) ∨
    ∃ c, k.Decorated "classmethod" c ∧ c.kind.isCallable = true ∧ c.name = n

/-- A name that a class reaches through `self` or assigns in its body. -/
def NamesValue (k : Span) (n : Text) : Prop :=
  (∃ a, a.kind = .selfAttribute ∧ k.NearestClass a ∧ a.name = n) ∨
    ∃ c ∈ k.children, c.kind = .classAttribute ∧ c.name = n

variable {s c d a tree : Span}

/-! ## Trees without repetition -/

theorem nodup_preorder_of_mem (h : tree.preorder.Nodup) (hs : s ∈ tree.preorder) :
    s.preorder.Nodup := by
  induction tree using tree_induction with
  | node tree ih =>
    rcases mem_preorder.mp hs with rfl | ⟨c, hc, hs⟩
    · exact h
    · have hbelow := (List.nodup_cons.mp h).2
      rw [descendants_eq, forest_eq_flatMap, List.nodup_flatMap] at hbelow
      exact ih c hc (hbelow.1 c hc) hs

theorem eq_of_mem_preorder (h : s.preorder.Nodup) (hc : c ∈ s.children) (hd : d ∈ s.children)
    (hac : a ∈ c.preorder) (had : a ∈ d.preorder) : c = d := by
  have hbelow := (List.nodup_cons.mp h).2
  rw [descendants_eq, forest_eq_flatMap, List.nodup_flatMap] at hbelow
  have hsymm : Std.Symm (Function.onFun List.Disjoint preorder) :=
    ⟨fun _ _ hapart _ hx hy => hapart hy hx⟩
  by_contra hne
  exact hbelow.2.forall hc hd hne hac had

/-- Around a child of a span, below the span, there is nothing. -/
theorem child_notMem_descendants (h : s.preorder.Nodup) (hc : c ∈ s.children)
    (hd : d ∈ s.descendants) : c ∉ d.descendants := by
  intro hcd
  obtain ⟨e, he, hd⟩ := mem_descendants.mp hd
  have hce : c ∈ e.descendants := by
    rcases List.mem_cons.mp hd with rfl | hd
    · exact hcd
    · exact descendants_trans hcd hd
  obtain rfl := eq_of_mem_preorder h hc he c.self_mem_preorder (List.mem_cons_of_mem _ hce)
  exact (List.nodup_cons.mp (nodup_preorder_of_mem h (child_mem_preorder hc))).1 hce

/-! ## Names reached through `self` -/

/-- The names reached through `self` are those of the attributes below the span that no class in
between takes. -/
theorem mem_selfNames_iff (h : s.preorder.Nodup)
    (hleaf : ∀ d ∈ s.preorder, d.kind = .selfAttribute → d.children = []) {n : Text} :
    n ∈ Signature.selfNames s ↔ ∃ a ∈ s.descendants, a.kind = .selfAttribute ∧ a.name = n ∧
      ∀ q ∈ s.descendants, q.kind = .classDef → a ∉ q.descendants := by
  induction s using tree_induction with
  | node s ih =>
    have hih : ∀ c ∈ s.children, n ∈ Signature.selfNames c ↔ ∃ a ∈ c.descendants,
        a.kind = .selfAttribute ∧ a.name = n ∧
          ∀ q ∈ c.descendants, q.kind = .classDef → a ∉ q.descendants := fun c hc =>
      ih c hc (nodup_preorder_of_mem h (child_mem_preorder hc)) fun d hd =>
        hleaf d (preorder_trans hd (child_mem_preorder hc))
    rw [Signature.selfNames_eq, Signature.selfNamesOf_eq_flatMap, List.mem_flatMap]
    constructor
    · intro hn
      obtain ⟨c, hc, hn⟩ := hn
      split at hn
      · rename_i hkind
        refine ⟨c, mem_descendants.mpr ⟨c, hc, c.self_mem_preorder⟩, eq_of_beq hkind,
          (List.mem_singleton.mp hn).symm, fun q hq _ => child_notMem_descendants h hc hq⟩
      · split at hn
        · cases hn
        · rename_i hclass
          obtain ⟨a, ha, hkind, hname, hnearest⟩ := (hih c hc).mp hn
          refine ⟨a, mem_descendants.mpr ⟨c, hc, List.mem_cons_of_mem _ ha⟩, hkind, hname,
            fun q hq hqclass haq => ?_⟩
          -- a class around the attribute stands in the same child, and is not that child
          obtain ⟨e, he, hqe⟩ := mem_descendants.mp hq
          obtain rfl := eq_of_mem_preorder h he hc
            (preorder_trans (List.mem_cons_of_mem _ haq) hqe) (List.mem_cons_of_mem _ ha)
          rcases List.mem_cons.mp hqe with rfl | hqe
          · exact hclass (beq_iff_eq.mpr hqclass)
          · exact hnearest q hqe hqclass haq
    · intro hn
      obtain ⟨a, ha, hkind, hname, hnearest⟩ := hn
      obtain ⟨c, hc, hac⟩ := mem_descendants.mp ha
      refine ⟨c, hc, ?_⟩
      rcases List.mem_cons.mp hac with rfl | hac
      · rw [if_pos (beq_iff_eq.mpr hkind)]
        exact List.mem_singleton.mpr hname.symm
      · have hbelow : c ∈ s.descendants := mem_descendants.mpr ⟨c, hc, c.self_mem_preorder⟩
        have hself : c.kind ≠ .selfAttribute := by
          intro hself
          obtain ⟨e, he, -⟩ := mem_descendants.mp hac
          rw [hleaf c (child_mem_preorder hc) hself] at he
          cases he
        have hclass : c.kind ≠ .classDef := fun hclass => hnearest c hbelow hclass hac
        rw [if_neg (by simpa using hself), if_neg (by simpa using hclass)]
        exact (hih c hc).mpr ⟨a, hac, hkind, hname, fun q hq =>
          hnearest q (descendants_trans hq hbelow)⟩

/-! ## Names of properties and methods -/

theorem isDecorator_iff {name : Text} :
    Signature.isDecorator name s = true ↔ s.kind = .decorator ∧ s.name = name := by
  simp [Signature.isDecorator]

theorem mem_propertyNames_iff {n : Text} :
    n ∈ s.children.flatMap Signature.propertyNames ↔ s.NamesProperty n := by
  simp only [Signature.propertyNames, List.mem_flatMap]
  constructor
  · intro h
    obtain ⟨d, hd, hn⟩ := h
    split at hn
    · rename_i hdecorator
      rw [isDecorator_iff] at hdecorator
      obtain ⟨c, hc, rfl⟩ := List.mem_map.mp hn
      obtain ⟨hc, hdefinition⟩ := List.mem_filter.mp hc
      exact ⟨c, ⟨d, hd, hdecorator.1, hdecorator.2, hc⟩, hdefinition, rfl⟩
    · cases hn
  · intro h
    obtain ⟨c, ⟨d, hd, hkind, hname, hc⟩, hdefinition, rfl⟩ := h
    refine ⟨d, hd, ?_⟩
    rw [if_pos (isDecorator_iff.mpr ⟨hkind, hname⟩)]
    exact List.mem_map_of_mem (List.mem_filter.mpr ⟨hc, hdefinition⟩)

theorem mem_methodNames_iff {n : Text} :
    n ∈ s.children.flatMap Signature.methodNames ↔ s.NamesMethod n := by
  simp only [Signature.methodNames, List.mem_flatMap]
  constructor
  · intro h
    obtain ⟨d, hd, hn⟩ := h
    split at hn
    · rename_i hmethod
      exact Or.inl ⟨d, hd, eq_of_beq hmethod, (List.mem_singleton.mp hn).symm⟩
    · split at hn
      · rename_i hdecorator
        rw [isDecorator_iff] at hdecorator
        obtain ⟨c, hc, rfl⟩ := List.mem_map.mp hn
        obtain ⟨hc, hcallable⟩ := List.mem_filter.mp hc
        exact Or.inr ⟨c, ⟨d, hd, hdecorator.1, hdecorator.2, hc⟩, hcallable, rfl⟩
      · cases hn
  · intro h
    rcases h with ⟨d, hd, hmethod, rfl⟩ | ⟨c, ⟨d, hd, hkind, hname, hc⟩, hcallable, rfl⟩
    · refine ⟨d, hd, ?_⟩
      rw [if_pos (beq_iff_eq.mpr hmethod)]
      exact List.mem_singleton_self _
    · refine ⟨d, hd, ?_⟩
      rw [if_neg (by simp [hkind]), if_pos (isDecorator_iff.mpr ⟨hkind, hname⟩)]
      exact List.mem_map_of_mem (List.mem_filter.mpr ⟨hc, hcallable⟩)

theorem mem_assignedNames_iff {n : Text} :
    n ∈ Signature.assignedNames s ↔ ∃ c ∈ s.children, c.kind = .classAttribute ∧ c.name = n := by
  simp [Signature.assignedNames, and_assoc]

theorem lists_attributesOf (hclass : s.kind = .classDef) (h : s.preorder.Nodup)
    (hleaf : ∀ d ∈ s.preorder, d.kind = .selfAttribute → d.children = []) :
    Text.Lists (Signature.attributesOf s) fun n =>
      n ≠ [] ∧ (s.NamesProperty n ∨ s.NamesValue n ∧ ¬ s.NamesMethod n) := by
  have hself : ∀ n, n ∈ Signature.selfNames s ↔
      ∃ a, a.kind = .selfAttribute ∧ s.NearestClass a ∧ a.name = n := by
    intro n
    rw [mem_selfNames_iff h hleaf]
    constructor
    · intro h
      obtain ⟨a, ha, hkind, hname, hnearest⟩ := h
      exact ⟨a, hkind, ⟨hclass, ha, hnearest⟩, hname⟩
    · intro h
      obtain ⟨a, hkind, hnearest, hname⟩ := h
      exact ⟨a, hnearest.below, hkind, hname, hnearest.nearest⟩
  have hsorted := Text.lists_sorted (((Signature.selfNames s ++ Signature.assignedNames s).filter
    (fun name => !(s.children.flatMap Signature.methodNames).contains name) ++
      s.children.flatMap Signature.propertyNames).filter (!·.isEmpty))
  refine ⟨hsorted.increasing, fun n => (hsorted.mem_iff n).trans ?_⟩
  rw [List.mem_filter, List.mem_append, List.mem_filter, List.mem_append, hself,
    mem_assignedNames_iff, mem_propertyNames_iff, Bool.not_eq_true', List.contains_eq_mem,
    decide_eq_false_iff_not, mem_methodNames_iff, Bool.not_eq_true', List.isEmpty_eq_false_iff,
    and_comm, or_comm]
  rfl

/-! ## The nearest class -/

theorem exists_nearestClass (k : Span) (hk : k.kind = .classDef) (ha : a ∈ k.descendants) :
    ∃ q ∈ k.preorder, q.NearestClass a := by
  induction k using descent_induction with
  | node k ih =>
    by_cases hnearest : ∀ q ∈ k.descendants, q.kind = .classDef → a ∉ q.descendants
    · exact ⟨k, k.self_mem_preorder, hk, ha, hnearest⟩
    · push Not at hnearest
      obtain ⟨q, hq, hclass, haq⟩ := hnearest
      obtain ⟨r, hr, hra⟩ := ih q hq hclass haq
      exact ⟨r, preorder_trans hr (List.mem_cons_of_mem k hq), hra⟩

theorem NearestClass.eq_of_mem {k q : Span} (hk : k.NearestClass a) (hq : q.NearestClass a)
    (hqk : q ∈ k.preorder) : q = k := by
  rcases List.mem_cons.mp hqk with rfl | hqk
  · rfl
  · exact absurd hq.below (hk.nearest q hqk hq.isClass)

theorem NearestClass.eq {table : RuleTable} {o : Opening} {k q : Span}
    (h : ∀ d ∈ tree.preorder, o.Placed table d) (hk : k ∈ tree.preorder) (hq : q ∈ tree.preorder)
    (hka : k.NearestClass a) (hqa : q.NearestClass a) : q = k := by
  have hplaced : ∀ s ∈ tree.preorder, ∀ d ∈ s.preorder, o.Placed table d := fun s hs d hd =>
    h d (preorder_trans hd hs)
  have hextent : ∀ s ∈ tree.preorder, s.NearestClass a →
      s.start ≤ a.start ∧ a.start < a.stop ∧ a.stop ≤ s.stop := fun s hs hsa =>
    have hmem := List.mem_cons_of_mem s hsa.below
    ⟨Opening.Placed.start_le (hplaced s hs) a hmem,
      Opening.Placed.start_lt_stop (hplaced s hs) a hsa.below,
      Opening.Placed.stop_le (hplaced s hs) a hmem⟩
  have hin := hextent k hk hka
  have hin' := hextent q hq hqa
  rcases Opening.Placed.nested_or_disjoint h k hk q hq with hqk | hkq | hapart
  · exact hka.eq_of_mem hqa hqk
  · exact (hqa.eq_of_mem hka hkq).symm
  · omega

end Span

section

variable {options : ScanOptions} {source : Text} {tree k : Span}

/-- The attributes of a class are its properties and the names that it assigns or reaches through
`self`, methods apart. What is reached through `self` inside a class counts for one class of the
tree. -/
theorem scan_attributes_iff (h : scan options source = .ok tree) (hk : k ∈ tree.preorder)
    (hclass : k.kind = .classDef) :
    Text.Lists (Signature.ofSpan k).attributes (fun n =>
      n ≠ [] ∧ (k.NamesProperty n ∨ k.NamesValue n ∧ ¬ k.NamesMethod n)) ∧
    ∀ a ∈ k.descendants, a.kind = .selfAttribute → ∃! q, q ∈ tree.preorder ∧ q.NearestClass a := by
  have hplaced := Rule.standard_regular.scan_placed h
  have hleaf : ∀ d ∈ k.preorder, d.kind = .selfAttribute → d.children = [] := by
    intro d hd hself
    obtain ⟨_, _, _, _, hread⟩ := hplaced d (Span.preorder_trans hd hk)
    exact hread.children_eq_nil (by rw [hself]; rfl)
  constructor
  · have hattributes := Span.lists_attributesOf hclass
      (Span.nodup_preorder_of_mem (scan_nodup h) hk) hleaf
    rwa [Signature.ofSpan, if_pos (beq_iff_eq.mpr hclass)]
  · intro a ha _
    obtain ⟨q, hq, hnearest⟩ := Span.exists_nearestClass k hclass ha
    have hqtree := Span.preorder_trans hq hk
    exact ⟨q, ⟨hqtree, hnearest⟩, fun r hr => hnearest.eq hplaced hqtree hr.1 hr.2⟩

/-- A class inside a method of another class that has a property. -/
def nestedClassSource : Text :=
  "class A:\n    x = 1\n    def f(self):\n        self.a = self.f\n        class B:\n" ++
  "            def g(self):\n                self.b = 3\n" ++
  "    @property\n    def p(self):\n        return self.c\n"

/-- What the inner class reaches through `self` counts for that class, and the name of a method
counts for none. -/
theorem scan_attributes_iff_nested : ∃ tree k a, scan {} nestedClassSource = .ok tree ∧
    k ∈ tree.preorder ∧ k.kind = .classDef ∧ a ∈ k.descendants ∧ a.kind = .selfAttribute ∧
      a.name = ("b" : Text) ∧
      Text.Lists [("a" : Text), ("c" : Text), ("p" : Text), ("x" : Text)] (fun n =>
        n ≠ [] ∧ (k.NamesProperty n ∨ k.NamesValue n ∧ ¬ k.NamesMethod n)) ∧
      ∃! q, q ∈ tree.preorder ∧ q.NearestClass a := by
  have htest : (scan {} nestedClassSource).toOption.any (fun tree => tree.preorder.any fun k =>
      k.kind == .classDef &&
      (Signature.ofSpan k).attributes ==
        [("a" : Text), ("c" : Text), ("p" : Text), ("x" : Text)] &&
      k.descendants.any fun a => a.kind == .selfAttribute && a.name == ("b" : Text)) = true := by
    decide +kernel
  obtain ⟨tree, hscan, htest⟩ := scan_ok_of_any htest
  obtain ⟨k, hk, htest⟩ := List.any_eq_true.mp htest
  simp only [Bool.and_eq_true, beq_iff_eq, List.any_eq_true] at htest
  obtain ⟨⟨hclass, hattributes⟩, a, ha, hself, hname⟩ := htest
  obtain ⟨hlists, hunique⟩ := scan_attributes_iff hscan hk hclass
  rw [hattributes] at hlists
  exact ⟨tree, k, a, hscan, hk, hclass, ha, hself, hname, hlists, hunique a ha hself⟩

end

end DocCoverage
