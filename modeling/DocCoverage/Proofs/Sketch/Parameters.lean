import DocCoverage.Proofs.Sketch.Defaults
import DocCoverage.Proofs.Sketch.Header

/-!
# Parameter lists

A parameter list holds plain parameters with annotations and defaults, starred parameters and the
bare star and slash. The declared parameters are the plain ones, in order, whatever stands in the
annotations and the defaults.
-/
namespace DocCoverage

open Rule (standard)
open Text (joinWith)

/-- A name of ASCII letters, digits and underscores. -/
structure Identifier where
  text : Text
  valid : text.AsciiIdentifier

/-- An annotation: a word, or a word with values in square brackets behind it. -/
inductive Hint where
  | word (w : Word)
  | subscript (w : Word) (items : Defaults)

/-- What stands behind a colon or an equals sign, with the numbers of spaces around the sign. -/
structure Marked (α : Type) where
  before : Nat
  after : Nat
  value : α

/-- An item of a parameter list. -/
inductive Item where
  | plain (name : Identifier) (hint : Option (Marked Hint))
      (default : Option (Marked Default))
  | star
  | starred (name : Identifier)
  | doubleStarred (name : Identifier)
  | slash

def Hint.text : Hint → Text
  | .word w => w.text
  | .subscript w items => w.text ++ Delimiter.square.enclose (joinWith [','] items.texts)

def Hint.depth : Hint → Nat
  | .word _ => 1
  | .subscript _ items => items.depth + 1

/-- The sign and the value behind it, if there is one. -/
def Marked.part {α : Type} (mark : Char) (value : α → Text) : Option (Marked α) → Text
  | none => []
  | some m =>
    List.replicate m.before ' ' ++ mark :: (List.replicate m.after ' ' ++ value m.value)

namespace Item

def text : Item → Text
  | .plain n a d => n.text ++ (Marked.part ':' Hint.text a ++ Marked.part '=' Default.text d)
  | .star => "*"
  | .starred n => "*" ++ n.text
  | .doubleStarred n => "**" ++ n.text
  | .slash => "/"

/-- How many levels of spans an item needs. -/
def depth : Item → Nat
  | .plain _ a d => max (a.elim 0 (·.value.depth)) (d.elim 0 (·.value.depth))
  | _ => 0

/-- Only a plain parameter has a name. -/
def name? : Item → Option Text
  | .plain n _ _ => some n.text
  | _ => none

end Item

namespace Sketch

variable {options : ScanOptions} {levels : Nat} {b : Delimiter} {o : Opening} {p : Progress}
  {v : Text}

/-! ## Hints and defaults -/

/-- What is left of a sign and the value behind it. -/
inductive Part (mark : Char) : Text → Prop
  | absent : Part mark []
  | present (before after : Nat) {w : Text} (h : IsName w) :
      Part mark (List.replicate before ' ' ++ mark :: (List.replicate after ' ' ++ w))

section

variable {α : Type} {mark : Char} {value : α → Text} {m : Option (Marked α)}

theorem slash_part (hmark : mark ∈ [':', '=']) (h : ∀ x ∈ m, '\\' ∉ value x.value) :
    '\\' ∉ Marked.part mark value m := by
  have hne : ∀ c ∈ [':', '='], '\\' ≠ c := Text.forall_of_all (by decide)
  cases m with
  | none => exact List.not_mem_nil
  | some x => simp [Marked.part, hne mark hmark, h x rfl]

theorem ended_part (hmark : mark ∈ [':', '=']) (h : Ended v) :
    Ended (Marked.part mark value m ++ v) := by
  have hends : ∀ c ∈ [':', '='], Text.EndsName c := Text.forall_of_all (by decide)
  cases m with
  | none => exact h
  | some x =>
    obtain ⟨before, after, x⟩ := x
    cases before with
    | zero => exact ⟨mark, _, rfl, hends mark hmark⟩
    | succ n => exact ⟨' ', _, rfl, by decide⟩

theorem exists_passes_part (hmark : mark ∈ [':', '='])
    (h : ∀ x ∈ m, Passable options levels (value x.value) IsName) (hkind : o.kind = b.kind)
    (houtside : ¬ p.pos < p.resumeAt) (hend : Ended v) :
    ∃ w q, Passes options levels o p (Marked.part mark value m) v w q ∧ Part mark w := by
  have hmarks : ∀ c ∈ [':', '='], isMark c = true ∧ c ∈ [' ', ',', '=', ':', '(', '[', '\x7b'] :=
    Text.forall_of_all (by decide)
  cases m with
  | none =>
    obtain ⟨q, hpasses⟩ : ∃ q, Passes options levels o p [] v [] q :=
      exists_passes_marks hkind houtside (by simp)
    exact ⟨[], q, hpasses, .absent⟩
  | some x =>
    -- the sign and the spaces around it are left, so a value may stand behind them
    let front := List.replicate x.before ' ' ++ mark :: List.replicate x.after ' '
    have hfront : ∀ c ∈ front, isMark c = true := by
      intro c hc
      rcases List.mem_append.mp hc with hc | hc
      · exact isMark_spaces _ c hc
      · rcases List.mem_cons.mp hc with rfl | hc
        · exact (hmarks c hmark).1
        · exact isMark_spaces _ c hc
    have hsplit : ∀ w, List.replicate x.before ' ' ++ mark :: (List.replicate x.after ' ' ++ w) =
        front ++ w := by
      intro w
      simp [front]
    obtain ⟨q, hmarked⟩ : ∃ q, Passes options levels o p front (value x.value ++ v) front q :=
      exists_passes_marks hkind houtside hfront
    have hahead : Ahead q.back := by
      rw [hmarked.back, List.reverse_append, List.reverse_cons, List.append_assoc,
        List.append_assoc]
      exact ahead_spaces ⟨mark, _, rfl, (hmarks mark hmark).2⟩ x.after
    obtain ⟨w, q', hvalue, hw⟩ := (h x rfl).passes hkind hahead hmarked.outside hend
    refine ⟨front ++ w, q', ?_, ?_⟩
    · rw [Marked.part, hsplit]
      exact hmarked.trans hvalue
    · rw [← hsplit]
      exact .present x.before x.after hw

/-- Behind a name, an annotation and a default only cut it off from what follows. -/
theorem suffix_parts {a d : Text} (ha : Part ':' a) (hd : Part '=' d) :
    Signature.Suffix (a ++ d) := by
  have hspaces : ∀ n, ∀ c ∈ List.replicate n ' ', c = ' ' :=
    fun n c hc => List.eq_of_mem_replicate hc
  cases ha with
  | absent =>
    cases hd with
    | absent => exact .nothing
    | present before after h => exact .mark (hspaces before) (Or.inr rfl)
  | present before after h =>
    rw [List.append_assoc, List.cons_append]
    exact .mark (hspaces before) (Or.inl rfl)

theorem Part.comma {w : Text} (h : Part mark w) (hmark : mark ∈ [':', '=']) : ',' ∉ w := by
  have hne : ∀ c ∈ [':', '='], ',' ≠ c := Text.forall_of_all (by decide)
  cases h with
  | absent => exact List.not_mem_nil
  | @present before after w h =>
    have hword : ',' ∉ w := fun hmem => absurd (h _ hmem) (by decide)
    simp [hne mark hmark, hword]

end

theorem passable_hint (hexpired : options.Untimed) (a : Hint)
    (hdepth : a.depth ≤ levels) : Passable options levels a.text IsName := by
  obtain ⟨levels, rfl⟩ : ∃ n, levels = n + 1 := by
    cases a <;> exact Nat.exists_eq_add_of_le' (Nat.le_of_add_left_le hdepth)
  cases a with
  | word w => exact passable_word _ hexpired w
  | subscript w items =>
    have hitems := items.passable hexpired (Nat.le_of_succ_le_succ hdepth)
    exact passable_applied hexpired w .square (passable_values hitems)

/-! ## Items -/

theorem passable_plain (hexpired : options.Untimed) {n : Identifier}
    {a : Option (Marked Hint)} {d : Option (Marked Default)}
    (hdepth : (Item.plain n a d).depth ≤ levels) :
    Passable options levels (Item.plain n a d).text (Signature.Piece (some n.text)) := by
  rw [Item.depth, Nat.max_le] at hdepth
  have ha : ∀ x ∈ a, Passable options levels (Hint.text x.value) IsName := by
    rintro x rfl
    exact passable_hint hexpired x.value hdepth.1
  have hd : ∀ x ∈ d, Passable options levels (Default.text x.value) IsName := by
    rintro x rfl
    exact x.value.passable hexpired hdepth.2
  have hname : Passable options levels n.text (· = n.text) :=
    passable_of_isListed (fun c hc => isListed_of_isAsciiWord (n.valid.word c hc)) rfl
  constructor
  · have hhint : '\\' ∉ Marked.part ':' Hint.text a :=
      slash_part (by simp) fun x hx => (ha x hx).slash
    have hdefault : '\\' ∉ Marked.part '=' Default.text d :=
      slash_part (by simp) fun x hx => (hd x hx).slash
    simp [Item.text, hname.slash, hhint, hdefault]
  · intro b o p v hkind hahead houtside hend
    have hend' : Ended (Marked.part '=' Default.text d ++ v) := ended_part (by simp) hend
    obtain ⟨w, q, hfirst, rfl⟩ := hname.passes
      (v := (Marked.part ':' Hint.text a ++ Marked.part '=' Default.text d) ++ v) hkind hahead
      houtside (by rw [List.append_assoc]; exact ended_part (by simp) hend')
    obtain ⟨wa, q', hhint, hwa⟩ : ∃ w q', Passes options levels o q
        (Marked.part ':' Hint.text a) (Marked.part '=' Default.text d ++ v) w q' ∧ Part ':' w :=
      exists_passes_part (by simp) ha hkind hfirst.outside hend'
    obtain ⟨wd, q'', hdefault, hwd⟩ : ∃ w q'', Passes options levels o q'
        (Marked.part '=' Default.text d) v w q'' ∧ Part '=' w :=
      exists_passes_part (by simp) hd hkind hhint.outside hend
    refine ⟨_, q'', hfirst.trans (hhint.trans hdefault), ?_, ?_⟩
    · have hcomma := n.valid.notMem (d := ',') (by decide)
      simp [hcomma, hwa.comma (by simp), hwd.comma (by simp)]
    · intro g hg
      exact Signature.parameterName_eq hg n.valid (suffix_parts hwa hwd)

/-- An item without a value is left as a whole and has no name. -/
theorem passable_bare {i : Item} (hnone : i.name? = none)
    (hi : ∀ c ∈ i.text, Text.isAsciiWord c = true ∨ c = '*' ∨ c = '/')
    (hmark : '*' ∈ i.text ∨ i.text = "/") :
    Passable options levels i.text (Signature.Piece i.name?) := by
  have hother : ∀ c ∈ i.text, ∀ d, Text.isAsciiWord d = false → d ≠ '*' → d ≠ '/' → c ≠ d := by
    rintro c hc d hd hstar hslash rfl
    rcases hi c hc with h | h | h
    · exact Bool.false_ne_true (hd.symm.trans h)
    · exact hstar h
    · exact hslash h
  refine passable_of_isListed ?_ ⟨?_, ?_⟩
  · intro c hc
    rcases hi c hc with h | rfl | rfl
    · exact isListed_of_isAsciiWord h
    · rfl
    · rfl
  · exact fun hmem => hother _ hmem ',' (by decide) (by decide) (by decide) rfl
  · intro g hg
    rw [hnone]
    refine Signature.parameterName_eq_none hg (fun c hc => ⟨?_, ?_, ?_⟩) hmark
    · rcases hi c hc with h | rfl | rfl
      · exact Text.isBlank_of_isAsciiWord h
      · decide
      · decide
    · exact hother c hc '=' (by decide) (by decide) (by decide)
    · exact hother c hc ':' (by decide) (by decide) (by decide)

theorem passable_item (hexpired : options.Untimed) (i : Item)
    (hdepth : i.depth ≤ levels) : Passable options levels i.text (Signature.Piece i.name?) := by
  have hnamed : ∀ (stars : Text) (n : Identifier), (∀ c ∈ stars, c = '*') →
      ∀ c ∈ stars ++ n.text, Text.isAsciiWord c = true ∨ c = '*' ∨ c = '/' := by
    intro stars n hstars c hc
    rcases List.mem_append.mp hc with hc | hc
    · exact Or.inr (Or.inl (hstars c hc))
    · exact Or.inl (n.valid.word c hc)
  cases i with
  | plain n a d => exact passable_plain hexpired hdepth
  | star => exact passable_bare rfl (by simp [Item.text]) (by simp [Item.text])
  | starred n => exact passable_bare rfl (hnamed "*" n (by simp)) (by simp [Item.text])
  | doubleStarred n => exact passable_bare rfl (hnamed "**" n (by simp)) (by simp [Item.text])
  | slash => exact passable_bare rfl (by simp [Item.text]) (Or.inr rfl)

end Sketch

open Sketch in
/-- The declared parameters of a function are the plain items of its parameter list, in order. -/
theorem scan_parameters {options : ScanOptions} (hexpired : options.Untimed)
    {items : List Item} (hdepth : 2 ≤ options.maxDepth)
    (hitems : ∀ i ∈ items, i.depth + 2 ≤ options.maxDepth) :
    ∃ tree s, scan options (headed (joinWith ", " (items.map Item.text))) = .ok tree ∧
      tree.children = [s] ∧ s.kind = .function ∧
      (Signature.ofSpan s).inputs = items.filterMap Item.name? := by
  obtain ⟨levels, hlevels⟩ := Nat.exists_eq_add_of_le' hdepth
  have hpassable : ∀ i ∈ items, Passable options levels i.text (Signature.Piece i.name?) := by
    intro i hi
    have hi := hitems i hi
    exact passable_item hexpired i (by omega)
  have hlist := Passable.joinWith 1 hpassable
  have hsep : (", " : Text) = ',' :: List.replicate 1 ' ' := by decide +kernel
  rw [hsep]
  refine exists_scan_headed hexpired hlevels (hlist.imp fun w hw => ?_)
  obtain ⟨ws, rfl, hws⟩ := hw
  have hpieces := List.forall₂_map_left_iff.mpr hws
  have hnames := Signature.filterMap_splitOn hpieces
  rwa [List.filterMap_map] at hnames

/-- A list with a bare star, a slash, nested defaults and a subscript. -/
def Item.samples : List Item :=
  let word : Word := ⟨"self.x", by decide, Text.forall_of_all (by decide)⟩
  let quoted : Quoted := ⟨"a, b=*", by decide, Text.forall_of_all (by decide)⟩
  let call : Default := .call word (.cons 0 (.quoted quoted) (.cons 1 (.group .curly .nil) .nil))
  [.plain ⟨"a", by decide⟩ (some ⟨0, 1, .subscript word (.cons 0 (.word word) .nil)⟩)
      (some ⟨1, 1, .group .square (.cons 0 call .nil)⟩),
    .slash, .plain ⟨"self", by decide⟩ none none, .star,
    .plain ⟨"b", by decide⟩ none (some ⟨0, 0, .quoted quoted⟩), .doubleStarred ⟨"c", by decide⟩]

theorem scan_parameters_nested : ({} : ScanOptions).Untimed ∧
    2 ≤ ({} : ScanOptions).maxDepth ∧
    (∀ i ∈ Item.samples, i.depth + 2 ≤ ({} : ScanOptions).maxDepth) ∧
    headed (joinWith ", " (Item.samples.map Item.text)) = "def f(a: self.x[self.x] = " ++
      "[self.x(\"a, b=*\", \x7b\x7d)], /, self, *, b=\"a, b=*\", **c):\n    pass\n" ∧
    ∃ tree s, scan {} (headed (joinWith ", " (Item.samples.map Item.text))) = .ok tree ∧
      tree.children = [s] ∧ s.kind = .function ∧ (Signature.ofSpan s).inputs = ["a", "self", "b"] :=
  have hdepth : ∀ i ∈ Item.samples, i.depth + 2 ≤ ({} : ScanOptions).maxDepth := by decide
  ⟨fun _ => rfl, by decide, hdepth, by decide +kernel,
    scan_parameters (fun _ => rfl) (by decide) hdepth⟩

end DocCoverage
