import DocCoverage.Proofs.Locality.Lines
import DocCoverage.Proofs.Scan.Partition

/-!
# Spans at the end of a file

In a file that ends with a line feed, a span that reaches the end is a definition or a decorator,
unless it is unterminated or a comment: every other span would have closed at the last line feed
or lies in no span that could hold a definition. Such a span can still go on behind the end.
-/
namespace DocCoverage

namespace Text

/-- A nonempty rest of a text that ends with a line feed ends with it too. -/
theorem suffix_lineFeed {a b w : Text} (h : w ++ ['\n'] = a ++ b) (hb : b ≠ []) :
    ∃ x, b = x ++ ['\n'] ∧ w = a ++ x := by
  rcases List.append_eq_append_iff.mp h with ⟨m, rfl, hm⟩ | ⟨m, rfl, hm⟩
  · cases m with
    | nil => exact ⟨[], by simpa using hm.symm, by simp⟩
    | cons c m =>
      simp only [List.cons_append, List.cons.injEq, List.nil_eq, List.append_eq_nil_iff] at hm
      exact absurd hm.2.2 hb
  · exact ⟨m, hm, rfl⟩

end Text

/-- A span that is complete at the end `n` of its file. -/
structure Span.Settled (n : Nat) (s : Span) : Prop where
  terminated : s.unterminated = false
  comment : s.kind = .comment → s.stop ≠ n
  decorator : s.kind = .decorator → s.stop = n → ∃ c ∈ s.children, c.kind.isDefinition = true

instance (n : Nat) (s : Span) : Decidable (s.Settled n) :=
  decidable_of_iff (s.unterminated = false ∧ (s.kind = .comment → s.stop ≠ n) ∧
      (s.kind = .decorator → s.stop = n → ∃ c ∈ s.children, c.kind.isDefinition = true))
    ⟨fun ⟨h, hc, hd⟩ => ⟨h, hc, hd⟩, fun h => ⟨h.terminated, h.comment, h.decorator⟩⟩

/-- A span that reaches the end `n` is a definition, or a decorator with its definition. -/
def Span.Definitive (n : Nat) (s : Span) : Prop :=
  s.stop = n → s.kind.isDefinition = true ∨
    s.kind = .decorator ∧ ∃ c ∈ s.children, c.kind.isDefinition = true

namespace Rule

/-- A kind that neither must be closed nor can be left open at the end of a line. -/
def endsWithLine : SpanKind → Bool
  | .decoratorArgument | .selfAttribute | .classAttribute | .returnStmt | .raiseStmt
  | .yieldStmt => true
  | _ => false

theorem endsWithLine_of_open {k : SpanKind} (hm : (standard k).mustClose = false)
    (hf : k ≠ .file) (hc : k ≠ .comment) (hd : k.isDefinition = false) (hk : k ≠ .decorator) :
    endsWithLine k = true := by
  cases k <;> simp_all [endsWithLine, SpanKind.isDefinition, standard, brackets, quoted,
    tripleQuoted]

theorem closes_lineFeed {k : SpanKind} (hk : endsWithLine k = true) (indent : Nat)
    (back t : Text) : (standard k).ending.closes indent ⟨back, '\n' :: t⟩ = true := by
  cases k with
  | decoratorArgument | selfAttribute | classAttribute | returnStmt | raiseStmt | yieldStmt => rfl
  | _ => cases hk

/-- What ends with its line holds no definition. -/
theorem child_of_endsWithLine {k c : SpanKind} (hk : endsWithLine k = true)
    (hc : c ∈ (standard k).children) : c.isDefinition = false ∧ c ≠ .decorator := by
  revert c
  cases k with
  | decoratorArgument | selfAttribute | classAttribute | returnStmt | raiseStmt | yieldStmt =>
    decide
  | _ => cases hk

theorem closes_nil (k : SpanKind) (indent : Nat) (back : Text) :
    (standard k).ending.closes indent ⟨back, []⟩ = false := by
  cases k <;> simp [standard, End.closes, brackets, quoted, tripleQuoted, definition, statement,
    comment, decorator, decoratorArgument, selfAttribute, classAttribute, file, starts, word,
    dedents, Text.startsWith, Text.dropPrefix?]

end Rule

section

variable {n : Nat} {o : Opening} {s : Span} {w : Text}

theorem Opening.Opens.kind_ne_file {c : Span} (h : o.Opens Rule.standard c) : c.kind ≠ .file := by
  obtain ⟨cur, k, -, hk, href⟩ := h
  rw [← href]
  exact SpanKind.refine_ne_file _ _ (Rule.standard_regular.dispatch_ne_file hk)

theorem Opening.Opens.before_last {c : Span} (h : o.Opens Rule.standard c)
    (hw : o.text = w ++ ['\n']) (hstart : o.start ≤ c.start) :
    c.start + 1 < o.start + Text.byteLength o.text := by
  obtain ⟨cur, k, hcur, hk, -⟩ := h
  obtain ⟨ht, hlen⟩ := Cursor.at?_eq_some_iff.mp hcur
  obtain ⟨back, ahead⟩ := cur
  dsimp only at ht hlen
  have hopens := (RuleTable.dispatch_eq_some hk).2
  cases ahead with
  | nil => cases hopens
  | cons d ahead =>
    obtain ⟨x, hx, rfl⟩ := Text.suffix_lineFeed (hw.symm.trans ht) (List.cons_ne_nil d ahead)
    cases x with
    | nil =>
      rw [hx, List.nil_append, Rule.standard_opens_lineFeed] at hopens
      cases hopens
    | cons e x =>
      have he := e.utf8Size_pos
      have hnl : ('\n').utf8Size = 1 := rfl
      simp only [hw, Text.byteLength_append, Text.byteLength_reverse, Text.byteLength_cons,
        Text.byteLength_nil]
      omega

theorem Opening.Ends.before_last (e : Nat) (cur : Cursor)
    (place : Cursor.at? o.text e = some cur) (hw : o.text = w ++ ['\n'])
    (fires : (Rule.standard o.kind).ending.closes o.indent cur = true) :
    e + (Rule.standard o.kind).trailing < Text.byteLength o.text := by
  obtain ⟨ht, hlen⟩ := Cursor.at?_eq_some_iff.mp place
  obtain ⟨back, ahead⟩ := cur
  dsimp only at ht hlen
  cases ahead with
  | nil =>
    rw [Rule.closes_nil] at fires
    cases fires
  | cons d ahead =>
    obtain ⟨x, hx, rfl⟩ := Text.suffix_lineFeed (hw.symm.trans ht) (List.cons_ne_nil d ahead)
    rw [hx] at fires
    have htrail := Rule.trailing_le_of_closes (Or.inl rfl) fires
    have hnl : ('\n').utf8Size = 1 := rfl
    simp only [hw, Text.byteLength_append, Text.byteLength_reverse, Text.byteLength_cons,
      Text.byteLength_nil]
    omega

/-- A span that runs out at the end of the file, and need not be closed, is a definition or a
decorator if all its children that reach the end are. -/
theorem Opening.Reading.kind_of_ranOut (h : o.Reading Rule.standard s)
    (hw : o.text = w ++ ['\n']) (hf : o.kind ≠ .file) (hc : o.kind ≠ .comment)
    (hm : (Rule.standard o.kind).mustClose = false)
    (hstop : s.stop = o.start + Text.byteLength o.text) (hlead : o.start + 1 < s.stop)
    (quiet : o.QuietUpTo Rule.standard s.children (Text.byteLength o.text))
    (hchildren : ∀ c ∈ s.children, c.stop = s.stop → c.kind.isDefinition = true ∨
      c.kind = .decorator) :
    o.kind.isDefinition = true ∨ o.kind = .decorator := by
  by_contra hno
  simp only [not_or, Bool.not_eq_true] at hno
  have hline := Rule.endsWithLine_of_open hm hf hc hno.1 hno.2
  have hnl : ('\n').utf8Size = 1 := rfl
  have hlen : Text.byteLength o.text = Text.byteLength w + 1 := by simp [hw, hnl]
  by_cases hcov : Covered s.children (o.start + Text.byteLength w)
  · -- the last line feed lies in a child, which then reaches the end and is no legal child
    obtain ⟨c, hmem, hle, hlt⟩ := hcov
    have hin := h.inside c hmem
    obtain ⟨cur, k, -, hk, href⟩ := h.opened c hmem
    rw [SpanKind.refine_of_ne hno.2] at href
    have hlegal := Rule.child_of_endsWithLine hline (RuleTable.dispatch_eq_some hk).1
    rw [href] at hlegal
    rcases hchildren c hmem (by omega) with hd | hd
    · rw [hlegal.1] at hd
      cases hd
    · exact hlegal.2 hd
  · have hwidth : o.width Rule.standard ≤ 1 := by
      obtain ⟨kind, start, indent, text⟩ := o
      cases kind <;> first | exact Nat.le_refl 1 | cases hline
    have hplace : Cursor.at? o.text (Text.byteLength w) = some ⟨w.reverse, ['\n']⟩ :=
      Cursor.at?_eq_some_iff.mpr ⟨by simpa using hw, by simp⟩
    have hquiet := quiet (Text.byteLength w) _ (by omega) (by omega) hplace (by simp) hcov
    have hfires := Rule.closes_lineFeed hline o.indent w.reverse []
    rw [hquiet.2] at hfires
    cases hfires

/-- A settled span that reaches the end of the file is a definition or a decorator. -/
theorem Opening.Placed.kind_of_stop {source : Text} (hsrc : source = w ++ ['\n'])
    (hplaced : ∀ d ∈ s.preorder, (⟨.file, 0, 0, source⟩ : Opening).Placed Rule.standard d)
    (hset : ∀ d ∈ s.preorder, d.Settled (Text.byteLength source)) (hf : s.kind ≠ .file)
    (hlead : s.start + 1 < s.stop) (hstop : s.stop = Text.byteLength source) :
    s.kind.isDefinition = true ∨ s.kind = .decorator := by
  induction s using Span.tree_induction with
  | node s ih =>
    have hself := hset s s.self_mem_preorder
    obtain ⟨front, t, ht, hstart, hread⟩ := hplaced s s.self_mem_preorder
    simp only [Nat.zero_add] at ht hstart
    have hlen := congrArg Text.byteLength ht
    rw [Text.byteLength_append] at hlen
    have hne : t ≠ [] := by
      rintro rfl
      simp at hlen
      omega
    obtain ⟨x, rfl, -⟩ := Text.suffix_lineFeed (hsrc.symm.trans ht) hne
    cases hread.ending with
    | closed e cur place _ _ _ fires stop_eq =>
      have hlt := Opening.Ends.before_last e cur place rfl fires
      simp only [Span.opening] at hlt stop_eq
      omega
    | ranOut stop_eq unterminated quiet =>
      refine hread.kind_of_ranOut rfl hf (fun hc => hself.comment hc hstop) ?_ stop_eq hlead quiet
        ?_
      · rw [← unterminated, hself.terminated]
      · intro c hc hcs
        have hin := hread.inside c hc
        have hopen := hread.opened c hc
        have hbefore := hopen.before_last rfl (by simp only [Span.opening] at hin ⊢; omega)
        have hbelow : ∀ d ∈ c.preorder, d ∈ s.preorder := fun d hd =>
          Span.preorder_trans hd (Span.child_mem_preorder hc)
        simp only [Span.opening] at hbefore hin
        exact ih c hc (fun d hd => hplaced d (hbelow d hd)) (fun d hd => hset d (hbelow d hd))
          hopen.kind_ne_file (by omega) (by omega)
    | decorated kind => exact Or.inr kind

/-- Below the file of settled spans every span that reaches the end is a definition, or a
decorator with its definition. -/
theorem scan_definitive {options : ScanOptions} {source : Text} {tree : Span}
    (hsrc : source = w ++ ['\n']) (h : scan options source = .ok tree)
    (hset : ∀ d ∈ tree.preorder, d.Settled (Text.byteLength source)) :
    ∀ d ∈ tree.descendants, d.Definitive (Text.byteLength source) := by
  intro d hd hstop
  have hplaced := Rule.standard_regular.scan_placed h
  have hdt : d ∈ tree.preorder := List.mem_cons_of_mem _ hd
  obtain ⟨q, hq, hdq⟩ := Span.exists_parent hd
  obtain ⟨front, t, ht, hstart, hread⟩ := hplaced q hq
  simp only [Nat.zero_add] at ht hstart
  have hin := hread.inside d hdq
  have hopen := hread.opened d hdq
  have hlen := congrArg Text.byteLength ht
  rw [Text.byteLength_append] at hlen
  simp only [Span.opening] at hin
  have hne : t ≠ [] := by
    rintro rfl
    simp at hlen
    omega
  obtain ⟨x, rfl, -⟩ := Text.suffix_lineFeed (hsrc.symm.trans ht) hne
  have hbefore := hopen.before_last rfl (by simp only [Span.opening]; omega)
  simp only [Span.opening] at hbefore
  have hkind := Opening.Placed.kind_of_stop hsrc
    (fun e he => hplaced e (Span.preorder_trans he hdt))
    (fun e he => hset e (Span.preorder_trans he hdt)) hopen.kind_ne_file (by omega) hstop
  rcases hkind with hdef | hdec
  · exact Or.inl hdef
  · exact Or.inr ⟨hdec, (hset d hdt).decorator hdec hstop⟩

end

end DocCoverage
