import Mathlib.Data.List.Forall2
import DocCoverage.Proofs.Sketch.Code

/-!
# Text between brackets

How the scanner passes over a text that stands between brackets: a word, a literal, a pair of
brackets inside or a list of such texts. `Passable` says of a text that it is passed over wherever
it stands between brackets, and what is left of it when the spans in it are cut out. The lemmas put
passable texts together.
-/
namespace DocCoverage

open Rule (standard)
open Text (isAsciiWord isWord joinWith)

/-- The sorts of brackets. -/
inductive Delimiter where
  | round
  | square
  | curly

namespace Delimiter

def kind : Delimiter → SpanKind
  | .round => .bracket
  | .square => .straightBracket
  | .curly => .curvedBracket

def opening : Delimiter → Char
  | .round => '('
  | .square => '['
  | .curly => '\x7b'

def closing : Delimiter → Char
  | .round => ')'
  | .square => ']'
  | .curly => '\x7d'

/-- A text between brackets. -/
def enclose (b : Delimiter) (t : Text) : Text := b.opening :: (t ++ [b.closing])

variable (b : Delimiter)

theorem exists_rule_eq : ∃ resume, standard b.kind = Rule.brackets b.opening b.closing resume := by
  cases b <;> exact ⟨_, rfl⟩

theorem children_eq : (standard b.kind).children = Rule.codeChildren := by
  cases b <;> rfl

theorem closes_eq_false {c : Char} (hc : c ≠ b.closing) (n : Nat) (back t : Text) :
    (standard b.kind).ending.closes n ⟨back, c :: t⟩ = false := by
  obtain ⟨resume, hrule⟩ := b.exists_rule_eq
  rw [hrule]
  exact End.closes_eq_false (beq_false_of_ne hc)

theorem dull_closing : RuleTable.dull standard b.kind b.closing = true := by
  cases b <;> decide

/-- An opening bracket opens a span of its sort wherever one may stand. -/
theorem dispatch_opening {parent : Rule} (hparent : b.kind ∈ parent.children) (back t : Text) :
    RuleTable.dispatch standard parent ⟨back, b.opening :: t⟩ = some b.kind := by
  have hcurrent : (standard b.kind).current b.opening = true ∧
      ∀ j ∈ SpanKind.priority.takeWhile (· != b.kind), (standard j).current b.opening = false := by
    cases b <;> decide
  refine RuleTable.dispatch_of_first hparent ?_ ?_
  · obtain ⟨resume, hrule⟩ := b.exists_rule_eq
    rw [hrule] at hcurrent ⊢
    simp [Rule.opens, Rule.brackets, Rule.any, Rule.anything, Rule.only]
  · intro j hj _
    rw [Bool.eq_false_iff]
    intro hopens
    have hfirst := hcurrent.2 j hj
    rw [(Rule.opens_cons hopens).1] at hfirst
    cases hfirst

end Delimiter

namespace Sketch

variable {options : ScanOptions} {levels : Nat} {b : Delimiter} {o : Opening} {p q : Progress}
  {t u v w : Text}

theorem scanSpan_enclosed (hexpired : options.Untimed) {spans : List Span}
    (hkind : o.kind = b.kind) (htext : o.text = b.enclose t ++ v) (hslash : '\\' ∉ t)
    (hruns : Runs standard options levels o (o.begin [b.opening]) t (b.closing :: v) spans q) :
    ∃ r, scanSpan standard options (levels + 1) o = .ok r ∧ o.Covers (b.enclose t) spans r := by
  obtain ⟨resume, hrule⟩ := b.exists_rule_eq
  have hsize : Text.byteLength [b.opening] = 1 ∧ Text.byteLength [b.closing] = 1 := by
    cases b <;> exact ⟨rfl, rfl⟩
  have hparts : o.text = [b.opening] ++ (t ++ ([b.closing] ++ v)) := by
    rw [htext, Delimiter.enclose]
    simp
  have hback : '\\' ∉ t.reverse ++ [b.opening] := by
    have hopening : b.opening ≠ '\\' := by cases b <;> decide
    simp [hslash, hopening.symm]
  refine scanSpan_closes hexpired hparts ?_ ?_ rfl hruns ?_ ?_ (Rule.standard_regular.resume_le _)
  · rw [hkind, hrule]
    exact hsize.1
  · rw [hkind, hrule]
    exact hsize.2
  · rw [hkind]
    exact RuleTable.dispatch_of_dull b.dull_closing _ _
  · rw [hkind, hrule]
    exact End.closes_eq_true hback (beq_self_eq_true b.closing)

/-! ## Characters at which nothing happens -/

/-- The characters of names, parameters, lambdas and what stands between them. -/
def isListed (c : Char) : Bool := isAsciiWord c || [',', ' ', '=', ':', '*', '/'].contains c

theorem isListed_of_isAsciiWord {c : Char} (h : isAsciiWord c = true) : isListed c = true := by
  rw [isListed, h, Bool.true_or]

theorem ne_of_isListed {c d : Char} (h : isListed c = true) (hd : isListed d = false) : c ≠ d := by
  rintro rfl
  rw [h] at hd
  cases hd

theorem not_mem_codeOpeners {c : Char} (hc : isListed c = true) : c ∉ Rule.codeOpeners := by
  have hopeners : ∀ d ∈ Rule.codeOpeners, (!isListed d) = true := List.all_eq_true.mp rfl
  intro hmem
  have hc' := hopeners c hmem
  rw [hc] at hc'
  cases hc'

theorem closing_ne_of_isListed {c : Char} (hc : isListed c = true) : c ≠ b.closing :=
  ne_of_isListed hc (by cases b <;> decide)

/-- Nothing happens at a character of a listing, when no name goes on behind the listing. -/
theorem quiet_listed {back a : Text} {c d : Char} (hc : isListed c = true)
    (ha : ∀ e ∈ a, isListed e = true) (hd : Text.EndsName d) (n : Nat) :
    RuleTable.Quiet standard b.kind n ⟨back, c :: (a ++ d :: v)⟩ := by
  refine ⟨Rule.dispatch_code_eq_none (by rw [b.children_eq]; exact List.Subset.refl _)
    (not_mem_codeOpeners hc) ?_, b.closes_eq_false (closing_ne_of_isListed hc) _ _ _⟩
  have hname : ∀ x ∈ ['e', 'l', 'f', '.'], ¬ Text.EndsName x := Text.forall_of_all (by decide)
  exact Rule.selfAttribute_opens_without_dot
    (fun hmem => ne_of_isListed (ha '.' hmem) (by decide) rfl) fun hmem => hname d hmem hd

/-- The characters between names. -/
def isMark (c : Char) : Bool := [',', ' ', '=', ':', '*', '/'].contains c

theorem quiet_mark {c : Char} (hc : isMark c = true) (n : Nat) (back t : Text) :
    RuleTable.Quiet standard b.kind n ⟨back, c :: t⟩ := by
  rw [isMark, List.contains_iff_mem] at hc
  have hdull : ∀ c ∈ [',', ' ', '=', ':', '*', '/'], RuleTable.dull standard b.kind c = true ∧
      c ≠ b.closing := Text.forall_of_all (by cases b <;> decide)
  exact ⟨RuleTable.dispatch_of_dull (hdull c hc).1 _ _, b.closes_eq_false (hdull c hc).2 _ _ _⟩

/-! ## Passing over a text -/

/-- The span gets over a text, and of the text another one is left when the spans in it are cut
out. -/
def Passes (options : ScanOptions) (levels : Nat) (o : Opening) (p : Progress) (u v w : Text)
    (q : Progress) : Prop :=
  ∃ spans, Runs standard options levels o p u v spans q ∧ Kept p.pos u spans w

namespace Passes

theorem outside (h : Passes options levels o p u v w q) : ¬ q.pos < q.resumeAt := by
  obtain ⟨spans, hruns, -⟩ := h
  exact hruns.outside

theorem back (h : Passes options levels o p u v w q) : q.back = u.reverse ++ p.back := by
  obtain ⟨spans, hruns, -⟩ := h
  exact hruns.back

theorem trans {q' : Progress} {u' w' : Text} (h : Passes options levels o p u (u' ++ v) w q)
    (h' : Passes options levels o q u' v w' q') :
    Passes options levels o p (u ++ u') v (w ++ w') q' := by
  obtain ⟨spans, hruns, hkept⟩ := h
  obtain ⟨spans', hruns', hkept'⟩ := h'
  rw [hruns.pos] at hkept'
  exact ⟨spans ++ spans', hruns.trans hruns', hkept.append hkept'⟩

end Passes

/-- What the character in front of a value is. -/
def Ahead (back : Text) : Prop :=
  ∃ c a, back = c :: a ∧ c ∈ [' ', ',', '=', ':', '(', '[', '\x7b']

/-- No name goes on in the text. -/
def Ended (v : Text) : Prop := ∃ d a, v = d :: a ∧ Text.EndsName d

/-- The text is passed over wherever a value may stand between brackets, and what is left of it
has a property. -/
structure Passable (options : ScanOptions) (levels : Nat) (u : Text) (left : Text → Prop) :
    Prop where
  slash : '\\' ∉ u
  passes : ∀ {b : Delimiter} {o : Opening} {p : Progress} {v : Text}, o.kind = b.kind →
    Ahead p.back → ¬ p.pos < p.resumeAt → Ended v →
      ∃ w q, Passes options levels o p u v w q ∧ left w

theorem exists_passes_marks (hkind : o.kind = b.kind) (houtside : ¬ p.pos < p.resumeAt)
    (hu : ∀ c ∈ u, isMark c = true) : ∃ q, Passes options levels o p u v u q := by
  obtain ⟨q, hruns⟩ : ∃ q, Runs standard options levels o p u v [] q := by
    refine exists_runs_chars houtside fun c hc back t => ?_
    rw [hkind]
    exact quiet_mark (hu c hc) _ _ _
  exact ⟨q, [], hruns, .plain _ _⟩

/-- Of a text in which nothing happens the whole is left. -/
theorem passable_of_isListed (h : ∀ c ∈ u, isListed c = true) {left : Text → Prop}
    (hleft : left u) : Passable options levels u left where
  slash hmem := ne_of_isListed (h _ hmem) (by decide) rfl
  passes := by
    intro b o p v hkind _ houtside hend
    obtain ⟨d, v, rfl, hd⟩ := hend
    have hquiet : ∀ a c e, u = a ++ c :: e →
        RuleTable.Quiet standard o.kind o.indent ⟨a.reverse ++ p.back, c :: (e ++ d :: v)⟩ := by
      intro a c e hu
      rw [hkind]
      exact quiet_listed (h c (by simp [hu])) (fun x hx => h x (by simp [hu, hx])) hd _
    obtain ⟨q, hruns⟩ := exists_runs_quiet houtside hquiet
    exact ⟨u, q, ⟨[], hruns, .plain _ _⟩, hleft⟩

theorem Passable.imp {left left' : Text → Prop} (h : Passable options levels u left)
    (himp : ∀ w, left w → left' w) : Passable options levels u left' where
  slash := h.slash
  passes hkind hahead houtside hend := by
    obtain ⟨w, q, hpasses, hw⟩ := h.passes hkind hahead houtside hend
    exact ⟨w, q, hpasses, himp w hw⟩

/-- A passable text between brackets is scanned up to the closing bracket. -/
theorem Passable.exists_scanSpan {left : Text → Prop} (hexpired : options.Untimed)
    (h : Passable options levels t left) (hkind : o.kind = b.kind)
    (htext : o.text = b.enclose t ++ v) :
    ∃ w spans r, scanSpan standard options (levels + 1) o = .ok r ∧
      o.Covers (b.enclose t) spans r ∧ Kept (o.start + 1) t spans w ∧ left w := by
  have hahead : Ahead [b.opening] := ⟨b.opening, [], rfl, by cases b <;> decide⟩
  have hend : Ended (b.closing :: v) := ⟨b.closing, v, rfl, by cases b <;> decide⟩
  obtain ⟨w, q, hpasses, hw⟩ :=
    h.passes (p := o.begin [b.opening]) hkind hahead (Nat.not_lt_zero _) hend
  obtain ⟨spans, hruns, hkept⟩ := hpasses
  obtain ⟨r, hr, hcovers⟩ := scanSpan_enclosed hexpired hkind htext h.slash hruns
  have hpos : (o.begin [b.opening]).pos = o.start + 1 := by cases b <;> rfl
  rw [hpos] at hkept
  exact ⟨w, spans, r, hr, hcovers, hkept, hw⟩

/-- Inside brackets, a pair of brackets with a passable text is cut out. -/
theorem exists_passes_enclosed {left : Text → Prop} {b' : Delimiter}
    (hexpired : options.Untimed) (h : Passable options levels t left)
    (hkind : o.kind = b.kind) (houtside : ¬ p.pos < p.resumeAt) :
    ∃ q, Passes options (levels + 1) o p (b'.enclose t) v [] q := by
  have hchild : b'.kind ∈ (standard o.kind).children := by
    rw [hkind, b.children_eq]
    cases b' <;> decide
  obtain ⟨hplain, hdecorated⟩ := Rule.plain_of_code (k := o.kind)
    (by rw [hkind, b.children_eq]; exact List.Subset.refl _)
  have hopens : RuleTable.dispatch standard (standard o.kind) ⟨p.back, b'.enclose t ++ v⟩ =
      some b'.kind := b'.dispatch_opening hchild _ _
  obtain ⟨w, spans, r, hr, hcovers, -, -⟩ := h.exists_scanSpan hexpired
    (o := o.inner p b'.kind (b'.enclose t ++ v)) (Opening.inner_kind hplain _ _) rfl
  obtain ⟨q, hruns⟩ := exists_runs_child houtside (List.cons_ne_nil _ _) hopens hr hcovers
    hdecorated
  exact ⟨q, _, hruns, .child rfl rfl⟩

/-! ## Spaces and commas -/

theorem ahead_spaces {back : Text} (h : Ahead back) (n : Nat) :
    Ahead ((List.replicate n ' ').reverse ++ back) := by
  cases n with
  | zero => exact h
  | succ n =>
    rw [List.reverse_replicate, List.replicate_succ]
    exact ⟨' ', _, rfl, by simp⟩

theorem isMark_spaces (n : Nat) : ∀ c ∈ List.replicate n ' ', isMark c = true := by
  intro c hc
  rw [List.eq_of_mem_replicate hc]
  rfl

theorem Passable.spaces {left : Text → Prop} (n : Nat) (h : Passable options levels t left) :
    Passable options levels (List.replicate n ' ' ++ t) fun w =>
      ∃ w', w = List.replicate n ' ' ++ w' ∧ left w' where
  slash := by simp [h.slash]
  passes hkind hahead houtside hend := by
    obtain ⟨q, hspaces⟩ := exists_passes_marks hkind houtside (isMark_spaces n)
    obtain ⟨w, q', hpasses, hw⟩ := h.passes hkind (hspaces.back ▸ ahead_spaces hahead n)
      hspaces.outside hend
    exact ⟨_, q', hspaces.trans hpasses, w, rfl, hw⟩

theorem Passable.comma {left left' : Text → Prop} (n : Nat) (h : Passable options levels t left)
    (h' : Passable options levels u left') :
    Passable options levels (t ++ (',' :: List.replicate n ' ' ++ u)) fun w =>
      ∃ a a', w = a ++ (',' :: List.replicate n ' ' ++ a') ∧ left a ∧ left' a' where
  slash := by simp [h.slash, h'.slash]
  passes := by
    intro b o p v hkind hahead houtside hend
    -- the comma ends the first value and makes room for the second
    obtain ⟨a, q, hfirst, ha⟩ := h.passes (v := (',' :: List.replicate n ' ' ++ u) ++ v) hkind
      hahead houtside ⟨',', _, rfl, by decide⟩
    obtain ⟨q', hcomma⟩ : ∃ q', Passes options levels o q (',' :: List.replicate n ' ') (u ++ v)
        (',' :: List.replicate n ' ') q' :=
      exists_passes_marks hkind hfirst.outside (List.forall_mem_cons.mpr ⟨rfl, isMark_spaces n⟩)
    have hahead' : Ahead q'.back := by
      rw [hcomma.back, List.reverse_cons, List.append_assoc]
      exact ahead_spaces ⟨',', q.back, rfl, by simp⟩ n
    obtain ⟨a', q'', hsecond, ha'⟩ := h'.passes hkind hahead' hcomma.outside hend
    exact ⟨_, q'', hfirst.trans (hcomma.trans hsecond), a, a', rfl, ha, ha'⟩

theorem joinWith_cons_cons (sep t t' : Text) (ts : List Text) :
    joinWith sep (t :: t' :: ts) = t ++ (sep ++ joinWith sep (t' :: ts)) := by
  rw [joinWith, List.append_assoc]
  exact List.cons_ne_nil t' ts

theorem Passable.joinWith {α : Type} {text : α → Text} {left : α → Text → Prop} {items : List α}
    (n : Nat) (h : ∀ i ∈ items, Passable options levels (text i) (left i)) :
    Passable options levels (joinWith (',' :: List.replicate n ' ') (items.map text)) fun w =>
      ∃ ws, w = Text.joinWith (',' :: List.replicate n ' ') ws ∧ List.Forall₂ left items ws := by
  induction items with
  | nil =>
    have hnone : ∀ c ∈ ([] : Text), isListed c = true := by simp
    exact passable_of_isListed hnone ⟨[], rfl, .nil⟩
  | cons i items ih =>
    have hi := h i List.mem_cons_self
    cases items with
    | nil => exact hi.imp fun w hw => ⟨[w], rfl, .cons hw .nil⟩
    | cons j items =>
      have hrest := ih fun k hk => h k (List.mem_cons_of_mem i hk)
      rw [List.map_cons, List.map_cons, joinWith_cons_cons, ← List.map_cons]
      refine (hi.comma n hrest).imp fun w hw => ?_
      obtain ⟨a, a', rfl, ha, ws, rfl, hws⟩ := hw
      obtain ⟨w, ws', hw, hws', rfl⟩ := List.forall₂_cons_left_iff.mp hws
      exact ⟨a :: w :: ws', (joinWith_cons_cons ..).symm, .cons ha hws⟩

end Sketch

end DocCoverage
