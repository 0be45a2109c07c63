import DocCoverage.Analysis
import DocCoverage.Proofs.Scan.Extents

/-!
# Spans that are never closed

A bracket, string or docstring whose closing delimiter is missing takes up the rest of the source,
and so does every span around it, since no place is left where one of these could close. So the
unterminated spans stand one in the other, and the warnings about them come in the order of the
source.
-/
namespace DocCoverage

namespace SpanKind

/-- A bracket, a string or a docstring. -/
def isDelimited : SpanKind → Bool
  | .bracket | .straightBracket | .curvedBracket => true
  | .singleString | .doubleString | .formattedSingleString | .formattedDoubleString => true
  | .singleDocstring | .doubleDocstring => true
  | _ => false

/-- The closing delimiter of brackets, strings and docstrings. -/
def closer : SpanKind → Text
  | .bracket => [')']
  | .straightBracket => [']']
  | .curvedBracket => ['\x7d']
  | .singleString | .formattedSingleString => ['\'']
  | .doubleString | .formattedDoubleString => ['"']
  | .singleDocstring => ['\'', '\'', '\'']
  | .doubleDocstring => ['"', '"', '"']
  | _ => []

theorem ne_file_of_isDelimited {k : SpanKind} (h : k.isDelimited = true) : k ≠ .file := by
  rintro rfl
  cases h

theorem isDelimited_of_isReportable {k : SpanKind} (h : k.isReportable = true) :
    k.isDelimited = false := by
  cases k with
  | file | classDef | function | method | classMethod => rfl
  | _ => cases h

end SpanKind

namespace Rule

variable {k : SpanKind} {indent : Nat} {cur : Cursor}

theorem standard_mustClose (k : SpanKind) : (standard k).mustClose = k.isDelimited := by
  cases k <;> rfl

theorem standard_trailing (h : k.isDelimited = true) :
    (standard k).trailing = Text.byteLength k.closer := by
  cases k with
  | bracket | straightBracket | curvedBracket => rfl
  | singleString | doubleString | formattedSingleString | formattedDoubleString => rfl
  | singleDocstring | doubleDocstring => rfl
  | _ => cases h

/-- A kind with a closing delimiter of more than one byte has no children. -/
theorem trailing_or_children (h : k.isDelimited = true) :
    (standard k).trailing = 1 ∨ (standard k).children = [] := by
  cases k with
  | bracket | straightBracket | curvedBracket => exact Or.inl rfl
  | singleString | doubleString | formattedSingleString | formattedDoubleString => exact Or.inl rfl
  | singleDocstring | doubleDocstring => exact Or.inr rfl
  | _ => cases h

theorem escaped_of_closes {accepts : Text → Bool}
    (h : (End.ahead accepts true).closes indent cur = true) : cur.escaped = false := by
  simp only [End.closes, Bool.and_eq_true] at h
  simpa using h.1

/-- Where such a span closes, its closing delimiter stands and is not escaped. -/
theorem closer_of_closes (hk : k.isDelimited = true)
    (h : (standard k).ending.closes indent cur = true) :
    cur.escaped = false ∧ ∃ rest, cur.ahead = k.closer ++ rest := by
  cases k with
  | bracket | straightBracket | curvedBracket =>
    exact ⟨escaped_of_closes h, starts_only (accepts_of_closes h)⟩
  | singleString | doubleString | formattedSingleString | formattedDoubleString =>
    exact ⟨escaped_of_closes h, starts_only (accepts_of_closes h)⟩
  | singleDocstring | doubleDocstring =>
    exact ⟨escaped_of_closes h, Text.startsWith_iff.mp (accepts_of_closes h)⟩
  | _ => cases hk

end Rule

namespace Opening.Reading

variable {s c : Span} {t : Text}

theorem unterminated_end (h : (s.opening t).Reading Rule.standard s)
    (hopen : s.unterminated = true) :
    s.kind.isDelimited = true ∧ s.stop = s.start + Text.byteLength t := by
  cases h.ending with
  | closed e cur place behind bare idle fires stop_eq terminated =>
    rw [hopen] at terminated
    cases terminated
  | ranOut stop_eq unterminated =>
    rw [hopen, Rule.standard_mustClose] at unterminated
    exact ⟨unterminated.symm, stop_eq⟩
  | decorated kind last isLast definition stop_eq terminated =>
    rw [hopen] at terminated
    cases terminated

/-- A span that has to be closed is not, where one of its children reaches its end. -/
theorem unterminated_of_child (h : (s.opening t).Reading Rule.standard s)
    (hkind : s.kind.isDelimited = true) (hc : c ∈ s.children) (hstop : c.stop = s.stop) :
    s.unterminated = true := by
  cases h.ending with
  | closed e cur place behind bare idle fires stop_eq =>
    have hin := h.inside c hc
    have htrail : (Rule.standard s.kind).trailing = 1 := by
      refine (Rule.trailing_or_children hkind).resolve_right fun hleaf => ?_
      rw [h.children_eq_nil hleaf] at hc
      cases hc
    -- the child would have to start behind the place where the span closes
    refine absurd ⟨c, hc, ?_, ?_⟩ bare
    all_goals
      simp only [Span.opening] at *
      omega
  | ranOut stop_eq unterminated =>
    rwa [show (s.opening t).kind = s.kind from rfl, Rule.standard_mustClose, hkind] at unterminated
  | decorated kind =>
    simp only [Span.opening] at kind
    rw [kind] at hkind
    cases hkind

/-- A span that was closed ends with its closing delimiter. -/
theorem closer_end (h : (s.opening t).Reading Rule.standard s)
    (hkind : s.kind.isDelimited = true) (hclosed : s.unterminated = false) :
    ∃ body, s.text = body ++ s.kind.closer ∧
      (Rule.standard s.kind).opener t ≤ Text.byteLength body ∧
      (body.reverse.takeWhile (· == '\\')).length % 2 = 0 := by
  cases h.ending with
  | closed e cur place behind bare idle fires stop_eq =>
    obtain ⟨hplain, rest, hahead⟩ := Rule.closer_of_closes hkind fires
    obtain ⟨hcut, hlen⟩ := Cursor.at?_eq_some_iff.mp place
    obtain ⟨after, hafter⟩ := h.text_eq
    have hreads := h.stop_eq
    simp only [Span.opening, Rule.standard_trailing hkind] at stop_eq hcut hafter
    rw [hahead, ← List.append_assoc] at hcut
    obtain ⟨htext, -⟩ := Text.append_inj_of_byteLength (hafter.symm.trans hcut) (by simp; omega)
    refine ⟨cur.back.reverse, htext, ?_, ?_⟩
    · simp only [Text.byteLength_reverse, hlen]
      exact behind
    · rw [List.reverse_reverse]
      simp only [Cursor.escaped, beq_eq_false_iff_ne] at hplain
      omega
  | ranOut stop_eq unterminated =>
    rw [hclosed, show (s.opening t).kind = s.kind from rfl, Rule.standard_mustClose,
      hkind] at unterminated
    cases unterminated
  | decorated kind =>
    simp only [Span.opening] at kind
    rw [kind] at hkind
    cases hkind

end Opening.Reading

section

variable {options : ScanOptions} {source : Text} {tree s q : Span}

theorem scan_unterminated (h : scan options source = .ok tree) (hs : s ∈ tree.preorder)
    (hopen : s.unterminated = true) :
    s.kind.isDelimited = true ∧ s.stop = Text.byteLength source := by
  obtain ⟨front, t, ht, hstart, hread⟩ := Rule.standard_regular.scan_placed h s hs
  obtain ⟨hkind, hstop⟩ := hread.unterminated_end hopen
  have hlen := congrArg Text.byteLength ht
  simp only [Text.byteLength_append] at hlen
  exact ⟨hkind, by simp only at hstart; omega⟩

theorem scan_reportable_closed (h : scan options source = .ok tree) (hs : s ∈ tree.preorder)
    (hkind : s.kind.isReportable = true) : s.unterminated = false := by
  refine Bool.eq_false_iff.mpr fun hopen => ?_
  have hdelimited := (scan_unterminated h hs hopen).1
  rw [SpanKind.isDelimited_of_isReportable hkind] at hdelimited
  cases hdelimited

theorem scan_file_closed (h : scan options source = .ok tree) : tree.unterminated = false :=
  scan_reportable_closed h tree.self_mem_preorder (by rw [(file_stop h).1]; rfl)

theorem scan_unterminated_mem (h : scan options source = .ok tree) (hs : s ∈ tree.preorder)
    (hopen : s.unterminated = true) : s ∈ tree.descendants := by
  refine (List.mem_cons.mp hs).resolve_left fun heq => ?_
  rw [heq, scan_file_closed h] at hopen
  cases hopen

/-- Everything around an unterminated span ends with it. -/
theorem scan_around_unterminated (h : scan options source = .ok tree) (hq : q ∈ tree.preorder)
    (hs : s ∈ q.descendants) (hopen : s.unterminated = true) :
    q.stop = Text.byteLength source ∧ (q.kind.isDelimited = true → q.unterminated = true) := by
  have hplaced := Rule.standard_regular.scan_placed h
  have hbelow : ∀ d ∈ q.preorder, d ∈ tree.preorder := fun d hd => Span.preorder_trans hd hq
  have hend := (scan_unterminated h (hbelow s (List.mem_cons_of_mem q hs)) hopen).2
  have hout := Opening.Placed.stop_le hplaced q hq
  rw [(file_stop h).2.2] at hout
  obtain ⟨c, hc, hsc⟩ := Span.mem_descendants.mp hs
  have hchild := Opening.Placed.stop_le
    (fun d hd => hplaced d (hbelow d (Span.mem_preorder.mpr (Or.inr ⟨c, hc, hd⟩)))) s hsc
  obtain ⟨_, _, _, _, hread⟩ := hplaced q hq
  have hin := (hread.inside c hc).2.2
  exact ⟨by omega, fun hkind => hread.unterminated_of_child hkind hc (by omega)⟩

/-- The unterminated spans stand one in the other. -/
theorem scan_unterminated_chain (h : scan options source = .ok tree) :
    (tree.preorder.filter (·.unterminated)).Pairwise fun s d => d ∈ s.descendants := by
  have hplaced := Rule.standard_regular.scan_placed h
  have hpairs := (Opening.Placed.pairwise_preorder hplaced).filter (·.unterminated)
  refine hpairs.imp_of_mem fun {s d} hs hd hsd => hsd.resolve_right fun hle => ?_
  obtain ⟨hs, hopen⟩ := List.mem_filter.mp hs
  obtain ⟨hd, hopen'⟩ := List.mem_filter.mp hd
  have hend := (scan_unterminated h hs hopen).2
  have hend' := (scan_unterminated h hd hopen').2
  have hlt := Opening.Placed.start_lt_stop hplaced d (scan_unterminated_mem h hd hopen')
  omega

theorem warnings_start (source : Text) (tree : Span) :
    (warningsOf source tree).map (·.start) =
      (tree.preorder.filter (·.unterminated)).map (·.start) := by
  rw [warningsOf, List.map_map]
  rfl

/-- An unterminated span is a bracket, string or docstring that takes up the rest of the source, as
do all spans around it, which are unterminated too if they are of these kinds; one that is not
unterminated ends with its closing delimiter. The unterminated spans form a chain, so the warnings
about them come in the order of the source. -/
theorem scan_unterminated_spans (h : scan options source = .ok tree) :
    (∀ s ∈ tree.preorder, s.unterminated = true →
      s.kind.isDelimited = true ∧ s.stop = Text.byteLength source ∧
      ∀ q ∈ tree.preorder, s ∈ q.descendants →
        q.stop = Text.byteLength source ∧ (q.kind.isDelimited = true → q.unterminated = true)) ∧
    (∀ s ∈ tree.preorder, s.kind.isDelimited = true → s.unterminated = false →
      ∃ body, s.text = body ++ s.kind.closer ∧
        (Rule.standard s.kind).opener s.text ≤ Text.byteLength body ∧
        (body.reverse.takeWhile (· == '\\')).length % 2 = 0) ∧
    (tree.preorder.filter (·.unterminated)).Pairwise (fun s d => d ∈ s.descendants) ∧
    ∀ gs path, ∃ a, analyze gs options path source = .ok a ∧
      a.warnings.map (·.start) = (tree.preorder.filter (·.unterminated)).map (·.start) ∧
      a.warnings.Pairwise fun w v => w.start < v.start := by
  have hplaced := Rule.standard_regular.scan_placed h
  have hchain := scan_unterminated_chain h
  refine ⟨fun s hs hopen => ?_, fun s hs hkind hclosed => ?_, hchain, fun gs path => ?_⟩
  · obtain ⟨hkind, hend⟩ := scan_unterminated h hs hopen
    exact ⟨hkind, hend, fun q hq hsq => scan_around_unterminated h hq hsq hopen⟩
  · obtain ⟨_, t, _, _, hread⟩ := hplaced s hs
    rw [Rule.standard_opener s.kind s.text t]
    exact hread.closer_end hkind hclosed
  · refine ⟨_, by rw [analyze, h], warnings_start source tree, ?_⟩
    refine List.pairwise_map.mpr (hchain.imp_of_mem fun {s d} hs _ hsd => ?_)
    obtain ⟨hs, hopen⟩ := List.mem_filter.mp hs
    exact Opening.Placed.start_lt Rule.standard_regular
      (fun e he => hplaced e (Span.preorder_trans he hs))
      (SpanKind.ne_file_of_isDelimited (scan_unterminated h hs hopen).1) d hsd

/-- A string in brackets, neither of them closed, behind a docstring with an escaped quote. -/
theorem scan_unterminated_spans_brackets : ∃ tree,
    scan {} "\"\"\"\\\"\"\"\"\nf(['é)" = .ok tree ∧
      (tree.preorder.filter (·.unterminated)).map (·.start) = [10, 11, 12] ∧
      (∀ s ∈ tree.preorder, s.unterminated = true → s.stop = 16) ∧
      (tree.preorder.filter (·.unterminated)).Pairwise (fun s d => d ∈ s.descendants) ∧
      ∃ s ∈ tree.preorder, s.kind = .doubleDocstring ∧ s.unterminated = false ∧
        ∃ body, s.text = body ++ s.kind.closer ∧
          (body.reverse.takeWhile (· == '\\')).length % 2 = 0 := by
  have htest : (scan {} "\"\"\"\\\"\"\"\"\nf(['é)").toOption.any (fun tree =>
      (tree.preorder.filter (·.unterminated)).map (·.start) == [10, 11, 12] &&
      tree.preorder.any fun s => s.kind == .doubleDocstring && !s.unterminated) = true := by
    decide +kernel
  obtain ⟨tree, htree, htest⟩ := scan_ok_of_any htest
  simp only [Bool.and_eq_true, beq_iff_eq, List.any_eq_true, Bool.not_eq_true'] at htest
  obtain ⟨hstarts, s, hs, hkind, hclosed⟩ := htest
  obtain ⟨hopen, hcloser, hchain, -⟩ := scan_unterminated_spans htree
  obtain ⟨body, htext, -, heven⟩ := hcloser s hs (by rw [hkind]; rfl) hclosed
  exact ⟨tree, htree, hstarts, fun q hq hu => (hopen q hq hu).2.1, hchain, s, hs, hkind, hclosed,
    body, htext, heven⟩

end

end DocCoverage
