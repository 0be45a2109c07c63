import DocCoverage.Outline
import DocCoverage.Proofs.Span.Tree
import Mathlib.Data.List.Basic

/-!
# Moving trees of spans

A move changes the offsets of all spans of a tree, and the text that each span keeps, but no kinds
and no nesting. Where the names, the parameter lists and the docstrings survive a move, so does
everything that an outline says apart from its offsets.
-/
namespace DocCoverage

structure Move where
  start : Nat → Nat
  stop : Nat → Nat
  /-- What a span that ends at the given offset keeps of its text. -/
  text : Nat → Text → Text

namespace Span

mutual

/-- The span with the offsets and texts of its tree moved. -/
def move (m : Move) : Span → Span
  | ⟨kind, text, start, stop, indent, unterminated, children⟩ =>
    ⟨kind, m.text stop text, m.start start, m.stop stop, indent, unterminated, moveAll m children⟩

def moveAll (m : Move) : List Span → List Span
  | [] => []
  | c :: rest => move m c :: moveAll m rest

end

variable (m : Move) (s : Span)

theorem moveAll_eq_map (spans : List Span) : moveAll m spans = spans.map (move m) := by
  induction spans with
  | nil => rfl
  | cons c spans ih => rw [moveAll, ih, List.map_cons]

@[simp] theorem move_kind : (s.move m).kind = s.kind := by cases s; rfl

@[simp] theorem move_text : (s.move m).text = m.text s.stop s.text := by cases s; rfl

@[simp] theorem move_start : (s.move m).start = m.start s.start := by cases s; rfl

@[simp] theorem move_stop : (s.move m).stop = m.stop s.stop := by cases s; rfl

@[simp] theorem move_indent : (s.move m).indent = s.indent := by cases s; rfl

@[simp] theorem move_unterminated : (s.move m).unterminated = s.unterminated := by cases s; rfl

@[simp] theorem move_children : (s.move m).children = s.children.map (move m) := by
  obtain ⟨kind, text, start, stop, indent, unterminated, children⟩ := s
  exact moveAll_eq_map m children

theorem forest_move (spans : List Span)
    (h : ∀ c ∈ spans, (c.move m).descendants = c.descendants.map (move m)) :
    forest (spans.map (move m)) = (forest spans).map (move m) := by
  induction spans with
  | nil => rfl
  | cons c spans ih =>
    have hc := h c (by simp)
    simp only [List.map_cons, forest, hc, ih fun d hd => h d (by simp [hd]), List.map_append]

theorem descendants_move : (s.move m).descendants = s.descendants.map (move m) := by
  induction s using tree_induction with
  | node s ih => rw [descendants_eq, descendants_eq, move_children, forest_move m _ ih]

theorem preorder_move : (s.move m).preorder = s.preorder.map (move m) := by
  simp [preorder, descendants_move]

/-- A move that keeps a span as it is keeps its whole tree if it keeps every span below. -/
theorem move_eq_self (h : ∀ d ∈ s.preorder, m.start d.start = d.start ∧ m.stop d.stop = d.stop ∧
    m.text d.stop d.text = d.text) : s.move m = s := by
  induction s using tree_induction with
  | node s ih =>
    have hs := h s s.self_mem_preorder
    have hcs : s.children.map (move m) = s.children := by
      refine (List.map_congr_left fun c hc => ih c hc fun d hd => ?_).trans (List.map_id _)
      exact h d (mem_preorder.mpr (Or.inr ⟨c, hc, hd⟩))
    obtain ⟨kind, text, start, stop, indent, unterminated, children⟩ := s
    simp only [move, moveAll_eq_map, mk.injEq, true_and]
    exact ⟨hs.2.2, hs.1, hs.2.1, hcs⟩

/-- What an outline reads off a span survives the move. -/
structure Faithful : Prop where
  name : (s.move m).name = s.name
  own : s.kind = .bracket → (s.move m).ownText = s.ownText
  doc : (s.move m).docstring.map text = s.docstring.map text

end Span

namespace Outline

mutual

/-- The outline with the offsets of all its nodes moved. -/
def move (m : Move) : Outline → Outline
  | ⟨kind, name, start, stop, signature, findings, coverage, tainted, children⟩ =>
    ⟨kind, name, m.start start, m.stop stop, signature, findings, coverage, tainted,
      moveAll m children⟩

def moveAll (m : Move) : List Outline → List Outline
  | [] => []
  | o :: rest => move m o :: moveAll m rest

end

theorem moveAll_eq_map (m : Move) (os : List Outline) : moveAll m os = os.map (move m) := by
  induction os with
  | nil => rfl
  | cons o os ih => rw [moveAll, ih, List.map_cons]

@[simp] theorem move_coverage (m : Move) (o : Outline) : (o.move m).coverage = o.coverage := by
  cases o
  rfl

end Outline

namespace Signature

variable {m : Move} {s : Span}

theorem selfNamesOf_eq_flatMap (spans : List Span) :
    selfNamesOf spans = spans.flatMap fun c =>
      if c.kind == .selfAttribute then [c.name]
      else if c.kind == .classDef then []
      else selfNames c := by
  induction spans with
  | nil => rfl
  | cons c spans ih => rw [selfNamesOf, ih, List.flatMap_cons]

theorem selfNames_eq (s : Span) : selfNames s = selfNamesOf s.children := by
  cases s
  rw [selfNames]

theorem countOf_move (kind : SpanKind) : countOf (s.move m) kind = countOf s kind := by
  simp [countOf, List.countP_map, Function.comp_def]

theorem filter_names_move (test : SpanKind → Bool)
    (hc : ∀ c ∈ s.children, test c.kind = true → (c.move m).name = c.name) :
    (((s.move m).children.filter (test ·.kind)).map Span.name) =
      ((s.children.filter (test ·.kind)).map Span.name) := by
  rw [Span.move_children, List.filter_map, List.map_map]
  simp only [Function.comp_def, Span.move_kind]
  refine List.map_congr_left fun c hmem => ?_
  obtain ⟨hmem, htest⟩ := List.mem_filter.mp hmem
  exact hc c hmem htest

theorem raisedNames_move
    (hc : ∀ c ∈ s.children, c.kind = .raiseStmt → (c.move m).name = c.name) :
    raisedNames (s.move m) = raisedNames s := by
  unfold raisedNames
  rw [filter_names_move (· == .raiseStmt) fun c hmem htest => hc c hmem (eq_of_beq htest)]

theorem parameters_move
    (hc : ∀ c ∈ s.children, c.kind = .bracket → (c.move m).ownText = c.ownText) :
    parameters (s.move m) = parameters s := by
  unfold parameters
  rw [Span.move_children, List.find?_map]
  simp only [Function.comp_def, Span.move_kind]
  cases hf : s.children.find? (·.kind == .bracket) with
  | none => rfl
  | some b =>
    have hkind : b.kind = .bracket := by simpa using List.find?_some hf
    simp only [Option.map_some, hc b (List.mem_of_find?_eq_some hf) hkind]

section

variable (h : ∀ d ∈ s.descendants, (d.move m).name = d.name)
include h

theorem selfNames_move : selfNames (s.move m) = selfNames s := by
  induction s using Span.tree_induction with
  | node s ih =>
    rw [selfNames_eq, selfNames_eq, selfNamesOf_eq_flatMap, selfNamesOf_eq_flatMap,
      Span.move_children, List.flatMap_map]
    refine List.flatMap_congr fun c hc => ?_
    have hbelow : ∀ d ∈ c.preorder, (d.move m).name = d.name := fun d hd =>
      h d (Span.mem_descendants.mpr ⟨c, hc, hd⟩)
    rw [Span.move_kind, hbelow c c.self_mem_preorder,
      ih c hc fun d hd => hbelow d (List.mem_cons_of_mem _ hd)]

theorem methodNames_move (hs : (s.move m).name = s.name) :
    methodNames (s.move m) = methodNames s := by
  unfold methodNames isDecorator
  rw [Span.move_kind, hs, filter_names_move SpanKind.isCallable fun c hc _ =>
    h c (Span.mem_descendants.mpr ⟨c, hc, c.self_mem_preorder⟩)]

theorem propertyNames_move (hs : (s.move m).name = s.name) :
    propertyNames (s.move m) = propertyNames s := by
  unfold propertyNames isDecorator
  rw [Span.move_kind, hs, filter_names_move SpanKind.isDefinition fun c hc _ =>
    h c (Span.mem_descendants.mpr ⟨c, hc, c.self_mem_preorder⟩)]

theorem attributesOf_move : attributesOf (s.move m) = attributesOf s := by
  have hbelow : ∀ c ∈ s.children, ∀ d ∈ c.preorder, (d.move m).name = d.name := fun c hc d hd =>
    h d (Span.mem_descendants.mpr ⟨c, hc, hd⟩)
  have hmethods : (s.move m).children.flatMap methodNames = s.children.flatMap methodNames := by
    rw [Span.move_children, List.flatMap_map]
    exact List.flatMap_congr fun c hc => methodNames_move
      (fun d hd => hbelow c hc d (List.mem_cons_of_mem _ hd)) (hbelow c hc c c.self_mem_preorder)
  have hproperties :
      (s.move m).children.flatMap propertyNames = s.children.flatMap propertyNames := by
    rw [Span.move_children, List.flatMap_map]
    exact List.flatMap_congr fun c hc => propertyNames_move
      (fun d hd => hbelow c hc d (List.mem_cons_of_mem _ hd)) (hbelow c hc c c.self_mem_preorder)
  have hassigned : assignedNames (s.move m) = assignedNames s :=
    filter_names_move (· == .classAttribute) fun c hc _ => hbelow c hc c c.self_mem_preorder
  unfold attributesOf
  rw [hmethods, hproperties, selfNames_move h, hassigned]

end

/-- A faithful move changes nothing that a definition declares. -/
theorem ofSpan_move (h : ∀ d ∈ s.descendants, d.Faithful m) : ofSpan (s.move m) = ofSpan s := by
  have hc : ∀ c ∈ s.children, c.Faithful m := fun c hc =>
    h c (Span.mem_descendants.mpr ⟨c, hc, c.self_mem_preorder⟩)
  unfold ofSpan
  rw [Span.move_kind, attributesOf_move fun d hd => (h d hd).name,
    parameters_move fun c hmem => (hc c hmem).own, countOf_move, countOf_move,
    raisedNames_move fun c hmem _ => (hc c hmem).name]

end Signature

namespace Outline

variable {m : Move} {s : Span}

theorem isTainted_move : isTainted (s.move m) = isTainted s := by
  simp [isTainted, Span.preorder_move, List.any_map, Function.comp_def]

theorem coverage_move (f : Findings) (nested : List Coverage) :
    Coverage.ofSpan (s.move m) f nested = Coverage.ofSpan s f nested := by
  have hcomment : Coverage.hasComment (s.move m) = Coverage.hasComment s := by
    simp [Coverage.hasComment, Span.descendants_move, List.any_map, Function.comp_def]
  have hdocstring : Coverage.hasDocstring (s.move m) = Coverage.hasDocstring s := by
    simp [Coverage.hasDocstring, List.any_map, Function.comp_def]
  simp only [Coverage.ofSpan, Coverage.ofFile, Coverage.ofDefinition, hcomment, hdocstring,
    Span.move_kind]

theorem findings_move (gs : GrammarSet) (sig : Signature) (h : s.Faithful m) :
    Findings.ofSpan gs sig (s.move m) = Findings.ofSpan gs sig s := by
  have hdoc := h.doc
  unfold Findings.ofSpan
  rw [Span.move_kind]
  cases hd : s.docstring with
  | none =>
    have hd' : (s.move m).docstring = none := by
      rw [hd] at hdoc
      simpa using hdoc
    rw [hd']
  | some doc =>
    rw [hd, Option.map_some, Option.map_eq_some_iff] at hdoc
    obtain ⟨doc', hd', htext⟩ := hdoc
    rw [hd']
    cases gs.forKind s.kind with
    | none => rfl
    | some g => simp only [htext]

theorem node_move (gs : GrammarSet) (name : Text) (children : List Outline)
    (h : ∀ d ∈ s.preorder, d.Faithful m) :
    node gs name (s.move m) (children.map (move m)) = (node gs name s children).move m := by
  have hsig := Signature.ofSpan_move fun d hd => h d (List.mem_cons_of_mem _ hd)
  have hcov : (children.map (move m)).map (·.coverage) = children.map (·.coverage) := by
    simp [Function.comp_def]
  simp only [node, isTainted_move, hsig, findings_move gs _ (h s s.self_mem_preorder),
    coverage_move, hcov, Span.move_kind, Span.move_start, Span.move_stop, move, moveAll_eq_map]

theorem nested_eq (gs : GrammarSet) (s : Span) : nested gs s = nestedIn gs s.children := by
  cases s
  rw [nested]

theorem nestedIn_append (gs : GrammarSet) (a b : List Span) :
    nestedIn gs (a ++ b) = nestedIn gs a ++ nestedIn gs b := by
  induction a with
  | nil => rfl
  | cons c a ih => simp [nestedIn, ih]

theorem nestedIn_move_of (gs : GrammarSet) (spans : List Span)
    (hc : ∀ c ∈ spans, nested gs (c.move m) = (nested gs c).map (move m))
    (h : ∀ c ∈ spans, ∀ d ∈ c.preorder, d.Faithful m) :
    nestedIn gs (spans.map (Span.move m)) = (nestedIn gs spans).map (move m) := by
  induction spans with
  | nil => rfl
  | cons c spans ih =>
    have hfaith := h c (by simp)
    rw [List.map_cons, nestedIn, nestedIn, List.map_append,
      ih (fun d hd => hc d (by simp [hd])) (fun d hd => h d (by simp [hd])), hc c (by simp),
      Span.move_kind, (hfaith c c.self_mem_preorder).name, node_move gs _ _ hfaith]
    split <;> rfl

theorem nested_move (gs : GrammarSet) (h : ∀ d ∈ s.descendants, d.Faithful m) :
    nested gs (s.move m) = (nested gs s).map (move m) := by
  induction s using Span.tree_induction with
  | node s ih =>
    have hbelow : ∀ c ∈ s.children, ∀ d ∈ c.preorder, d.Faithful m := fun c hc d hd =>
      h d (Span.mem_descendants.mpr ⟨c, hc, hd⟩)
    rw [nested_eq, nested_eq, Span.move_children]
    refine nestedIn_move_of gs s.children (fun c hc => ih c hc fun d hd => ?_) hbelow
    exact hbelow c hc d (List.mem_cons_of_mem _ hd)

theorem nestedIn_move (gs : GrammarSet) (spans : List Span)
    (h : ∀ c ∈ spans, ∀ d ∈ c.preorder, d.Faithful m) :
    nestedIn gs (spans.map (Span.move m)) = (nestedIn gs spans).map (move m) :=
  nestedIn_move_of gs spans
    (fun c hc => nested_move gs fun d hd => h c hc d (List.mem_cons_of_mem _ hd)) h

end Outline

end DocCoverage
