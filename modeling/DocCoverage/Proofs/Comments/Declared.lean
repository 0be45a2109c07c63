import DocCoverage.Proofs.Comments.Replaced

/-!
# What definitions declare around a comment

Inputs, statement counts and raised names do not depend on the text of a comment. Attributes do
not either, unless the name of a definition, which is all that stands in its header in front of the
first bracket, colon or line feed, runs into the comment.
-/
namespace DocCoverage

namespace Span

/-- A definition whose name runs into the comment. -/
def NamedThrough (s c : Span) : Prop :=
  s.kind.isDefinition = true ∧ ∃ w rest, s.text = w ++ (c.text ++ rest) ∧
    c.start = s.start + Text.byteLength w ∧ ∀ d ∈ w, d ≠ '(' ∧ d ≠ ':' ∧ d ≠ '\n'

theorem headerName_localTo {keyword w : Text}
    (hkeyword : ∀ d ∈ keyword, d ≠ '#' ∧ d ≠ '(' ∧ d ≠ ':' ∧ d ≠ '\n')
    (hw : ∃ d ∈ w, d = '(' ∨ d = ':' ∨ d = '\n') (t t' : Text) :
    headerName keyword (w ++ '#' :: t) = headerName keyword (w ++ '#' :: t') := by
  obtain ⟨d, hd, hstop⟩ := hw
  have hnumber : '#' ∉ keyword := fun hmem => (hkeyword _ hmem).1 rfl
  have hmem : d ∈ Text.dropPrefix keyword w := by
    unfold Text.dropPrefix
    cases hdrop : Text.dropPrefix? keyword w with
    | none => exact hd
    | some rest =>
      rw [Text.dropPrefix?_eq_some_iff.mp hdrop, List.mem_append] at hd
      refine hd.resolve_left fun hmem => ?_
      have hplain := (hkeyword d hmem).2
      rcases hstop with rfl | rfl | rfl
      · exact hplain.1 rfl
      · exact hplain.2.1 rfl
      · exact hplain.2.2 rfl
  -- the name ends in front of the comment
  have hname : ∀ v, (Text.dropPrefix keyword w ++ '#' :: v).takeWhile
      (fun c => !(c == '(' || c == ':' || c == '\n')) =
        (Text.dropPrefix keyword w).takeWhile (fun c => !(c == '(' || c == ':' || c == '\n')) := by
    intro v
    rw [List.takeWhile_append, if_neg]
    intro hlen
    have hall := List.takeWhile_eq_self_iff.mp
      ((List.takeWhile_prefix _).eq_of_length hlen) d hmem
    rcases hstop with rfl | rfl | rfl <;> cases hall
  simp only [headerName, Text.breakAt, Text.dropPrefix_append_cons hnumber, hname]

theorem nameOf_definition {k : SpanKind} (hdefinition : k.isDefinition = true) {w : Text}
    (hw : ∃ d ∈ w, d = '(' ∨ d = ':' ∨ d = '\n') (t t' : Text) :
    nameOf k (w ++ '#' :: t) = nameOf k (w ++ '#' :: t') := by
  cases k with
  | classDef | function | method | classMethod => exact headerName_localTo (by simp) hw t t'
  | _ => cases hdefinition

theorem nameOf_localTo {k : SpanKind} (hdefinition : k.isDefinition = false)
    (hkind : k = .comment ∨ (Rule.standard k).children ≠ []) : LocalTo '#' (nameOf k) := by
  intro w t t'
  cases k with
  | classDef | function | method | classMethod => cases hdefinition
  | selfAttribute | classAttribute => exact absurd hkind (by decide)
  | decorator | decoratorArgument =>
    show (Text.dropPrefix "@" (w ++ '#' :: t)).takeWhile Text.isDotted =
      (Text.dropPrefix "@" (w ++ '#' :: t')).takeWhile Text.isDotted
    rw [Text.dropPrefix_append_cons (by decide), Text.dropPrefix_append_cons (by decide),
      Text.takeWhile_append_cons (by decide), Text.takeWhile_append_cons (by decide)]
  | raiseStmt =>
    show (Text.trimStart (Text.dropPrefix "raise" (w ++ '#' :: t))).takeWhile Text.isDotted =
      (Text.trimStart (Text.dropPrefix "raise" (w ++ '#' :: t'))).takeWhile Text.isDotted
    rw [Text.dropPrefix_append_cons (by decide), Text.dropPrefix_append_cons (by decide),
      Text.trimStart, Text.trimStart, Text.dropWhile_append_cons (by decide),
      Text.dropWhile_append_cons (by decide), Text.takeWhile_append_cons (by decide),
      Text.takeWhile_append_cons (by decide)]
  | _ => rfl

theorem gap?_of_le {s : Span} {first last : Nat} (hfirst : s.start ≤ first)
    (hlast : s.start ≤ last) :
    s.gap? first last = Text.slice? s.text (first - s.start) (last - s.start) := by
  unfold gap?
  rw [if_neg (by simp; omega)]

end Span

/-- How a span lies to the comment, with the text in front of the comment and behind it if the
comment is part of it. -/
inductive Rewording.Lies (x : Rewording) (s : Span) : Prop
  | before (stop_le : s.stop ≤ x.comment.start)
  | around (w rest : Text) (text_eq : s.text = w ++ (x.comment.text ++ rest))
      (start_eq : x.comment.start = s.start + Text.byteLength w)
  | behind (le_start : x.comment.stop ≤ s.start)

section

variable {options : ScanOptions} {source front : Text} {tree s : Span} {x : Rewording}

theorem scan_lies (h : scan options source = .ok tree) (hc : x.comment ∈ tree.preorder)
    (hcomment : x.comment.CommentIn source front x.behind) (hs : s ∈ tree.preorder) :
    x.Lies s := by
  have hfit := scan_fits x h hc s hs
  rcases hfit.cases with hle | hin | hge
  · exact .before hle
  · obtain ⟨front', t, ht, hstart, hread⟩ := Rule.standard_regular.scan_placed h s hs
    obtain ⟨hfirst, hlast⟩ := hfit.around hin
    have hplace := hcomment.start_eq
    have hend := hcomment.stop_eq
    have hstop := hread.stop_eq
    simp only [Nat.zero_add] at ht hstart
    obtain ⟨after, hafter⟩ := hread.text_eq
    obtain ⟨w, hw, hrest⟩ := Text.append_split_of_le (ht.symm.trans hcomment.source_eq) (by omega)
    have hsum := congrArg Text.byteLength hw
    rw [Text.byteLength_append] at hsum
    have hcut : (w ++ x.comment.text) ++ x.behind = s.text ++ after := by
      rw [List.append_assoc, ← hrest]
      exact hafter
    obtain ⟨rest, htext, -⟩ := Text.append_split_of_le hcut (by
      rw [Text.byteLength_append]
      omega)
    exact .around w rest (by rw [htext, List.append_assoc]) (by omega)
  · exact .behind hge

namespace Rewording.Lies

variable (hstop : s.stop = s.start + Text.byteLength s.text)
include hstop

/-- A gap without the comment is kept. -/
theorem gap?_move (h : x.Lies s) {first last : Nat} (hfirst : s.start ≤ first)
    (hle : first ≤ last) (hlast : last ≤ s.stop)
    (hclear : last ≤ x.comment.start ∨ x.comment.stop ≤ first) :
    (s.move x.move).gap? (x.move.stop first) (x.move.stop last) = s.gap? first last := by
  have hend := x.stop_eq
  rw [Span.gap?_of_le hfirst (by omega)]
  cases h with
  | before stop_le =>
    have hstart := x.start_of_le (show s.start ≤ x.comment.start by omega)
    rw [x.stop_of_le (show first ≤ _ by omega), x.stop_of_le (show last ≤ _ by omega),
      Span.gap?_of_le (by omega) (by omega), hstart, Span.move_text,
      x.text_before stop_le]
  | around w rest text_eq start_eq =>
    have hstart := x.start_of_le (show s.start ≤ x.comment.start by omega)
    have htext := x.text_around hstop text_eq start_eq
    rcases hclear with hclear | hclear
    · rw [x.stop_of_le (show first ≤ _ by omega), x.stop_of_le hclear,
        Span.gap?_of_le (by omega) (by omega), hstart, Span.move_text, htext, text_eq,
        Text.slice?_of_le _ (by omega), Text.slice?_of_le _ (by omega)]
    · -- both gaps are the same slice of the text behind the comment
      obtain ⟨i, rfl⟩ := Nat.exists_eq_add_of_le hclear
      obtain ⟨j, rfl⟩ := Nat.exists_eq_add_of_le (Nat.le_trans hclear hle)
      have hold : ∀ e, x.comment.stop + e - s.start =
          Text.byteLength (w ++ x.comment.text) + e := by
        intro e
        rw [Text.byteLength_append]
        omega
      have hmoved : ∀ e, x.move.stop (x.comment.stop + e) =
          s.start + (Text.byteLength (w ++ x.new) + e) := by
        intro e
        have hrigid := x.rigid.stop (x.comment.stop + e) (by omega)
        rw [Text.byteLength_append]
        omega
      rw [hmoved, hmoved, Span.gap?_of_le (by omega) (by omega), hstart, Span.move_text, htext,
        text_eq, ← List.append_assoc, ← List.append_assoc, Nat.add_sub_cancel_left,
        Nat.add_sub_cancel_left, hold, hold, Text.slice?_behind, Text.slice?_behind]
  | behind le_start =>
    have hstart := x.rigid.start s.start le_start
    have hfirst' := x.rigid.stop first (by omega)
    have hlast' := x.rigid.stop last (by omega)
    rw [Span.gap?_of_le (by rw [Span.move_start]; omega) (by rw [Span.move_start]; omega),
      Span.move_text, Span.move_start, x.text_behind hstop le_start]
    congr 1 <;> omega

/-- The gaps between children are kept if the comment is no part of them: the span ends in front of
it, or it has been passed, or a child around it is still to come. -/
theorem gapsFrom?_move (h : x.Lies s) (cs : List Span) (first : Nat) (hfirst : s.start ≤ first)
    (hle : first ≤ s.stop) (hbehind : ∀ c ∈ cs, first ≤ c.start)
    (hord : cs.Pairwise fun c d => c.stop ≤ d.start)
    (hcs : ∀ c ∈ cs, c.start < c.stop ∧ c.stop ≤ s.stop)
    (hclear : s.stop ≤ x.comment.start ∨ x.comment.stop ≤ first ∨
      ∃ c ∈ cs, c.start ≤ x.comment.start ∧ x.comment.stop ≤ c.stop) :
    (s.move x.move).gapsFrom? (x.move.stop first) (cs.map (Span.move x.move)) =
      s.gapsFrom? first cs := by
  induction cs generalizing first with
  | nil =>
    have hgap := h.gap?_move hstop hfirst hle (Nat.le_refl _) (by simpa using hclear)
    simp only [List.map_nil, Span.gapsFrom?, Span.move_stop, hgap]
  | cons c cs ih =>
    obtain ⟨hlt, hin⟩ := hcs c List.mem_cons_self
    obtain ⟨hnext, hord⟩ := List.pairwise_cons.mp hord
    have hfc := hbehind c List.mem_cons_self
    have hcase : c.start ≤ x.comment.start ∧ (s.stop ≤ x.comment.start ∨
        x.comment.stop ≤ c.stop ∨ ∃ d ∈ cs, d.start ≤ x.comment.start ∧ x.comment.stop ≤ d.stop) ∨
        x.comment.stop ≤ first := by
      rcases hclear with hle | hle | ⟨d, hd, haround⟩
      · exact Or.inl ⟨by omega, Or.inl hle⟩
      · exact Or.inr hle
      · rcases List.mem_cons.mp hd with rfl | hd
        · exact Or.inl ⟨haround.1, Or.inr (Or.inl haround.2)⟩
        · have hcd := hnext d hd
          exact Or.inl ⟨by omega, Or.inr (Or.inr ⟨d, hd, haround⟩)⟩
    have hgap := h.gap?_move hstop hfirst hfc (by omega) (hcase.imp (·.1) id)
    have hrest := ih c.stop (by omega) hin hnext hord
      (fun d hd => hcs d (List.mem_cons_of_mem _ hd)) (by
        rcases hcase with ⟨-, hcase⟩ | hle
        · exact hcase
        · exact Or.inr (Or.inl (by omega)))
    simp only [List.map_cons, Span.gapsFrom?, Span.move_start, Span.move_stop, x.move_start, hgap,
      hrest]

end Rewording.Lies

theorem scan_ownText_move (h : scan options source = .ok tree) (hc : x.comment ∈ tree.preorder)
    (hcomment : x.comment.CommentIn source front x.behind) (hs : s ∈ tree.preorder)
    (hne : s ≠ x.comment) : (s.move x.move).ownText = s.ownText := by
  have hlies := scan_lies h hc hcomment hs
  have hfits := scan_fits x h hc
  obtain ⟨_, _, _, _, hread⟩ := Rule.standard_regular.scan_placed h s hs
  have hstop := hread.stop_eq
  have hinside := hread.inside
  simp only [Span.opening] at hinside
  have hclear : s.stop ≤ x.comment.start ∨ x.comment.stop ≤ s.start ∨
      ∃ c ∈ s.children, c.start ≤ x.comment.start ∧ x.comment.stop ≤ c.stop := by
    rcases (hfits s hs).cases with hle | hin | hge
    · exact Or.inl hle
    · obtain ⟨c, hcs, hin⟩ := (Span.mem_preorder.mp hin).resolve_left (Ne.symm hne)
      have hmem := Span.preorder_trans (Span.child_mem_preorder hcs) hs
      exact Or.inr (Or.inr ⟨c, hcs, (hfits c hmem).around hin⟩)
    · exact Or.inr (Or.inl hge)
  have hgaps := hlies.gapsFrom?_move hstop s.children s.start (Nat.le_refl _) (by omega)
    (fun c hcs => by have := hinside c hcs; omega) hread.ordered (fun c hcs => (hinside c hcs).2)
    hclear
  simp only [Span.ownText, Span.ownText?, Span.move_children, Span.move_start, x.move_start, hgaps]

/-- Every span keeps its name, unless it is a definition that is named through the comment. -/
theorem scan_name_move (h : scan options source = .ok tree) (hc : x.comment ∈ tree.preorder)
    (hcomment : x.comment.CommentIn source front x.behind) (hs : s ∈ tree.preorder)
    (hnamed : ¬ s.NamedThrough x.comment) : (s.move x.move).name = s.name := by
  obtain ⟨_, _, _, _, hread⟩ := Rule.standard_regular.scan_placed h s hs
  have hstop := hread.stop_eq
  rw [Span.name, Span.name, Span.move_kind, Span.move_text]
  cases scan_lies h hc hcomment hs with
  | before stop_le => rw [x.text_before stop_le]
  | behind le_start => rw [x.text_behind hstop le_start]
  | around w rest text_eq start_eq =>
    rw [x.text_around hstop text_eq start_eq, text_eq]
    obtain ⟨t, ht⟩ := x.head
    obtain ⟨t', ht'⟩ := x.new_head
    rw [ht, ht']
    by_cases hdefinition : s.kind.isDefinition = true
    · have hw : ∃ d ∈ w, d = '(' ∨ d = ':' ∨ d = '\n' := by
        by_contra hplain
        refine hnamed ⟨hdefinition, w, rest, text_eq, start_eq, fun d hd => ?_⟩
        refine ⟨?_, ?_, ?_⟩ <;> rintro rfl <;> exact hplain ⟨_, hd, by simp⟩
      exact Span.nameOf_definition hdefinition hw _ _
    · refine Span.nameOf_localTo (Bool.eq_false_iff.mpr hdefinition) ?_ w _ _
      -- a span without children does not stand around the comment
      by_contra hleaf
      rw [not_or, not_ne_iff] at hleaf
      have hlen := x.len_pos
      have hend := x.stop_eq
      have hsum := congrArg Text.byteLength text_eq
      simp only [Text.byteLength_append] at hsum
      rcases (scan_fits x h hc s hs).cases with hle | hin | hge
      · omega
      · rcases Span.mem_preorder.mp hin with heq | ⟨c, hcs, -⟩
        · exact hleaf.1 (heq ▸ x.kind_eq)
        · rw [hread.children_eq_nil hleaf.2] at hcs
          cases hcs
      · omega

/-- What a span declares, the attributes apart, does not depend on the comment. -/
theorem scan_signature_move (h : scan options source = .ok tree) (hc : x.comment ∈ tree.preorder)
    (hcomment : x.comment.CommentIn source front x.behind) (hs : s ∈ tree.preorder) :
    (Signature.ofSpan (s.move x.move)).inputs = (Signature.ofSpan s).inputs ∧
    (Signature.ofSpan (s.move x.move)).returns = (Signature.ofSpan s).returns ∧
    (Signature.ofSpan (s.move x.move)).yields = (Signature.ofSpan s).yields ∧
    (Signature.ofSpan (s.move x.move)).raises = (Signature.ofSpan s).raises := by
  have hchild : ∀ c ∈ s.children, c ∈ tree.preorder := fun c hcs =>
    Span.preorder_trans (Span.child_mem_preorder hcs) hs
  have hparameters : Signature.parameters (s.move x.move) = Signature.parameters s := by
    refine Signature.parameters_move fun c hcs hkind => ?_
    refine scan_ownText_move h hc hcomment (hchild c hcs) ?_
    rintro rfl
    rw [x.kind_eq] at hkind
    cases hkind
  have hraises : Signature.raisedNames (s.move x.move) = Signature.raisedNames s := by
    refine Signature.raisedNames_move fun c hcs hkind => ?_
    refine scan_name_move h hc hcomment (hchild c hcs) fun hnamed => ?_
    rw [Span.NamedThrough, hkind] at hnamed
    cases hnamed.1
  unfold Signature.ofSpan
  rw [Span.move_kind, hparameters, hraises, Signature.countOf_move, Signature.countOf_move]
  split
  · exact ⟨rfl, rfl, rfl, rfl⟩
  · split <;> exact ⟨rfl, rfl, rfl, rfl⟩

/-- The attributes of a class do not depend on the comment, unless a definition is named through
it. -/
theorem scan_attributes_move (h : scan options source = .ok tree)
    (hc : x.comment ∈ tree.preorder) (hcomment : x.comment.CommentIn source front x.behind)
    (hs : s ∈ tree.preorder) (hnamed : ∀ d ∈ s.descendants, ¬ d.NamedThrough x.comment) :
    (Signature.ofSpan (s.move x.move)).attributes = (Signature.ofSpan s).attributes := by
  have hattributes : Signature.attributesOf (s.move x.move) = Signature.attributesOf s :=
    Signature.attributesOf_move fun d hd => scan_name_move h hc hcomment
      (Span.preorder_trans (List.mem_cons_of_mem _ hd) hs) (hnamed d hd)
  unfold Signature.ofSpan
  rw [Span.move_kind, hattributes]
  split
  · rfl
  · split <;> rfl

end

example : (scan {} "class A:\n    @property\n    def f # x\n    (self): pass\n").toOption.map
    (fun tree => tree.children.map fun s => (Signature.ofSpan s).attributes) =
      some [[("f # x" : Text)]] := by
  decide +kernel

/-! ## Other text in a comment -/

section

variable {options : ScanOptions} {source new : Text} {tree c : Span}

/-- A comment may be replaced by any other one on a single line that does not end in an odd run of
backslashes. Without a deadline the file then has the same tree with the comment replaced in it,
exactly if the new comment does not begin or cease to assign a value to a name that a class
annotates up to the comment. The moved tree declares the same inputs, returns, yields and raised
names, and the same attributes unless a definition is named through the comment. -/
theorem scan_comment_replaced (h : scan options source = .ok tree) (hc : c ∈ tree.preorder)
    (hkind : c.kind = .comment) (hhead : new.head? = some '#') (hline : '\n' ∉ new)
    (heven : (new.reverse.takeWhile (· == '\\')).length % 2 = 0) :
    (scan options.untimed (Text.splice c.start (Text.byteLength c.text) new source) =
        .ok (tree.move (.splice c.start (Text.byteLength c.text) new)) ↔
      ((∃ k ∈ tree.preorder, k.AnnotatesUpTo c) →
        Rule.assignsLater new = Rule.assignsLater c.text)) ∧
    ∀ s ∈ tree.preorder, ∀ s', s' = s.move (.splice c.start (Text.byteLength c.text) new) →
      (Signature.ofSpan s').inputs = (Signature.ofSpan s).inputs ∧
      (Signature.ofSpan s').returns = (Signature.ofSpan s).returns ∧
      (Signature.ofSpan s').yields = (Signature.ofSpan s).yields ∧
      (Signature.ofSpan s').raises = (Signature.ofSpan s).raises ∧
      ((∀ d ∈ s.descendants, ¬ d.NamedThrough c) →
        (Signature.ofSpan s').attributes = (Signature.ofSpan s).attributes) := by
  obtain ⟨front, behind, hcomment⟩ := scan_comment h hc hkind
  obtain ⟨x, rfl, rfl, hx⟩ : ∃ x : Rewording, x.comment = c ∧ x.new = new ∧
      x.comment.CommentIn source front x.behind := by
    refine ⟨⟨c, new, behind, hkind, hcomment.children_eq, hcomment.stop_eq, hcomment.head, ?_,
      hline, hcomment.behind_head, hcomment.even, fun _ => heven⟩, rfl, rfl, hcomment⟩
    exact List.head?_eq_some_iff.mp hhead
  have hmove : Move.splice x.comment.start (Text.byteLength x.comment.text) x.new = x.move := rfl
  rw [hmove]
  refine ⟨scan_reworded_iff options.untimed_untimed (RuleTable.scan_untimed h) hc hx, ?_⟩
  rintro s hs _ rfl
  obtain ⟨hinputs, hreturns, hyields, hraises⟩ := scan_signature_move h hc hx hs
  exact ⟨hinputs, hreturns, hyields, hraises, scan_attributes_move h hc hx hs⟩

/-- A comment behind an annotation, and another one in its place. -/
theorem scan_comment_replaced_annotated : ∃ tree c : Span,
    scan {} "class A:\n    label: str  # note\n    def f(self, x): pass\n" = .ok tree ∧
      c ∈ tree.preorder ∧ c.kind = .comment ∧ c.start = 25 ∧ c.text = ("# note" : Text) ∧
      scan {} "class A:\n    label: str  # é ( x\n    def f(self, x): pass\n" =
        .ok (tree.move (.splice 25 6 "# é ( x")) ∧
      ∀ s ∈ tree.preorder, (Signature.ofSpan (s.move (.splice 25 6 "# é ( x"))).inputs =
        (Signature.ofSpan s).inputs := by
  have htest : (scan {} "class A:\n    label: str  # note\n    def f(self, x): pass\n").toOption.any
      (fun tree => tree.preorder.any fun c =>
        c.kind == .comment && (c.start == 25 && c.text == ("# note" : Text))) = true := by
    decide +kernel
  obtain ⟨tree, hscan, htest⟩ := scan_ok_of_any htest
  obtain ⟨c, hc, htest⟩ := List.any_eq_true.mp htest
  simp only [Bool.and_eq_true, beq_iff_eq] at htest
  obtain ⟨hkind, hstart, htext⟩ := htest
  have hhead : ("# é ( x" : Text).head? = some '#' := rfl
  have hreplaced := scan_comment_replaced hscan hc hkind hhead (by simp) rfl
  have hlen : Text.byteLength ("# note" : Text) = 6 := rfl
  have hsplice : Text.splice 25 6 "# é ( x"
      "class A:\n    label: str  # note\n    def f(self, x): pass\n" =
        ("class A:\n    label: str  # é ( x\n    def f(self, x): pass\n" : Text) := by
    decide +kernel
  rw [hstart, htext, hlen, hsplice] at hreplaced
  refine ⟨tree, c, hscan, hc, hkind, hstart, htext, hreplaced.1.mpr fun _ => ?_, fun s hs => ?_⟩
  · decide
  · exact (hreplaced.2 s hs _ rfl).1

/-- With an equals sign in the comment the annotated name becomes an attribute. -/
theorem scan_comment_assigns : ∃ tree c tree' : Span,
    scan {} "class A:\n    label: str  # note\n" = .ok tree ∧
      c ∈ tree.preorder ∧ c.kind = .comment ∧
      scan {} (Text.splice c.start (Text.byteLength c.text) "# a = b"
        "class A:\n    label: str  # note\n") = .ok tree' ∧
      tree' ≠ tree.move (.splice c.start (Text.byteLength c.text) "# a = b") ∧
      tree.children.map (fun s => (Signature.ofSpan s).attributes) = [[]] ∧
      tree'.children.map (fun s => (Signature.ofSpan s).attributes) = [[("label" : Text)]] := by
  have htest : (scan {} "class A:\n    label: str  # note\n").toOption.any (fun tree =>
      tree.children.map (fun s => (Signature.ofSpan s).attributes) == [[]] &&
        tree.preorder.length == 3 && tree.preorder.any fun c =>
          c.kind == .comment && (c.start == 25 && c.text == ("# note" : Text))) = true := by
    decide +kernel
  have htest' : (scan {} "class A:\n    label: str  # a = b\n").toOption.any (fun tree =>
      tree.children.map (fun s => (Signature.ofSpan s).attributes) == [[("label" : Text)]] &&
        tree.preorder.length == 4) = true := by
    decide +kernel
  obtain ⟨tree, hscan, htest⟩ := scan_ok_of_any htest
  obtain ⟨tree', hscan', htest'⟩ := scan_ok_of_any htest'
  simp only [Bool.and_eq_true, beq_iff_eq] at htest htest'
  obtain ⟨⟨hnone, hlen⟩, htest⟩ := htest
  obtain ⟨c, hc, htest⟩ := List.any_eq_true.mp htest
  simp only [Bool.and_eq_true, beq_iff_eq] at htest
  obtain ⟨hkind, hstart, htext⟩ := htest
  have hsplice : Text.splice 25 (Text.byteLength "# note") "# a = b"
      "class A:\n    label: str  # note\n" =
        ("class A:\n    label: str  # a = b\n" : Text) := by
    decide +kernel
  refine ⟨tree, c, tree', hscan, hc, hkind, ?_, ?_, hnone, htest'.1⟩
  · rw [hstart, htext, hsplice, hscan']
  · rintro rfl
    rw [Span.preorder_move, List.length_map, hlen] at htest'
    exact absurd htest'.2 (by decide)

end

end DocCoverage
