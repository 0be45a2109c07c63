import DocCoverage.Proofs.Locality.Ends
import DocCoverage.Proofs.Scan.Runs
import DocCoverage.Proofs.Scan.Unterminated

/-!
# Where spans end in a line

A span closes with a delimiter or in front of a line feed, or it goes over no line feed except in
its children. So no span ends in the spaces at the front of a line, unless the line or the source
ends there: a text of a span that ends with a line feed and spaces has another line feed behind it,
or nothing.
-/
namespace DocCoverage

namespace Text

theorem split_spaces {k : Nat} {c : Char} {v g r : Text}
    (h : List.replicate k ' ' ++ v = g ++ c :: r) (hc : c ≠ ' ') :
    ∃ w, g = List.replicate k ' ' ++ w ∧ v = w ++ c :: r := by
  induction k generalizing g with
  | zero => exact ⟨g, rfl, h⟩
  | succ k ih =>
    rw [List.replicate_succ, List.cons_append] at h
    cases g with
    | nil => exact absurd (List.cons.inj h).1.symm hc
    | cons d g =>
      obtain ⟨rfl, htail⟩ := List.cons.inj h
      obtain ⟨w, rfl, hv⟩ := ih htail
      exact ⟨w, rfl, hv⟩

@[simp] theorem byteLength_replicate (k : Nat) : byteLength (List.replicate k ' ') = k := by
  rw [byteLength_spaces fun c hc => List.eq_of_mem_replicate hc, List.length_replicate]

end Text

namespace Rule

variable {k : SpanKind} {back t : Text}

theorem opens_head (h : (standard k).opens ⟨back, t⟩ = true) :
    ∃ c rest, t = c :: rest ∧ c ≠ ' ' ∧ c ≠ '\n' := by
  cases t with
  | nil => cases h
  | cons c rest =>
    have hcurrent := (opens_cons h).1
    refine ⟨c, rest, rfl, ?_, ?_⟩
    all_goals
      rintro rfl
      revert hcurrent
      cases k <;> decide

/-- A span closes in front of line feeds only, or with a delimiter, or at every line feed. -/
theorem ending_cases (h : k ≠ .file) :
    ((standard k).trailing = 0 ∧ ∀ indent cur, (standard k).ending.closes indent cur = true →
      ∃ rest, cur.ahead = '\n' :: rest) ∨ k.isDelimited = true ∨ endsWithLine k = true := by
  cases k with
  | file => exact absurd rfl h
  | classDef | function | method | classMethod | decorator =>
    exact Or.inl ⟨rfl, fun _ _ hcloses => dedents_lineFeed hcloses⟩
  | comment => exact Or.inl ⟨rfl, fun _ _ hcloses => starts_only (accepts_of_closes hcloses)⟩
  | bracket | straightBracket | curvedBracket => exact Or.inr (Or.inl rfl)
  | singleString | doubleString | formattedSingleString | formattedDoubleString =>
    exact Or.inr (Or.inl rfl)
  | singleDocstring | doubleDocstring => exact Or.inr (Or.inl rfl)
  | _ => exact Or.inr (Or.inr rfl)

theorem opener_of_endsWithLine (h : endsWithLine k = true) :
    (standard k).trailing = 0 ∧ ∀ t, (standard k).opener t = 1 := by
  cases k with
  | decoratorArgument | selfAttribute | classAttribute => exact ⟨rfl, fun _ => rfl⟩
  | returnStmt | raiseStmt | yieldStmt => exact ⟨rfl, fun _ => rfl⟩
  | _ => cases h

theorem definition_ending (h : k.isDefinition = true) :
    (standard k).ending = .dedent ∧ (standard k).trailing = 0 := by
  cases k with
  | classDef | function | method | classMethod => exact ⟨rfl, rfl⟩
  | _ => cases h

end Rule

/-- Closing delimiters end neither with a space nor with a line feed. -/
theorem SpanKind.closer_last {k : SpanKind} (h : k.isDelimited = true) :
    ∃ w q, k.closer = w ++ [q] ∧ q ≠ ' ' ∧ q ≠ '\n' := by
  cases k with
  | bracket | straightBracket | curvedBracket => exact ⟨[], _, rfl, by decide, by decide⟩
  | singleString | doubleString | formattedSingleString | formattedDoubleString =>
    exact ⟨[], _, rfl, by decide, by decide⟩
  | singleDocstring => exact ⟨['\'', '\''], '\'', rfl, by decide, by decide⟩
  | doubleDocstring => exact ⟨['"', '"'], '"', rfl, by decide, by decide⟩
  | _ => cases h

namespace Opening.Reading

variable {o : Opening} {s c d : Span} {a : Text}

theorem disjoint {table : RuleTable} (h : o.Reading table s) (hc : c ∈ s.children)
    (hd : d ∈ s.children) : c = d ∨ c.stop ≤ d.start ∨ d.stop ≤ c.start :=
  List.Pairwise.forall_of_forall_of_flip
    (R := fun c d : Span => c = d ∨ c.stop ≤ d.start ∨ d.stop ≤ c.start)
    (fun _ _ => Or.inl rfl) (h.ordered.imp fun hle => Or.inr (Or.inl hle))
    (h.ordered.imp fun hle => Or.inr (Or.inr hle)) hc hd

/-- A child starts neither at a space nor at a line feed, and only a comment at a number sign. -/
theorem head (h : o.Reading Rule.standard s) (hc : c ∈ s.children) {t : Text}
    (ht : o.text = a ++ t) (hstart : c.start = o.start + Text.byteLength a) :
    ∃ x rest, t = x :: rest ∧ x ≠ ' ' ∧ x ≠ '\n' ∧ (x = '#' → c.kind = .comment) := by
  obtain ⟨⟨back, ahead⟩, k, hplace, hdispatch, hkind⟩ := h.opened c hc
  rw [hstart, Nat.add_sub_cancel_left] at hplace
  obtain ⟨hcut, hlen⟩ := Cursor.at?_eq_some_iff.mp hplace
  obtain ⟨-, rfl⟩ := Text.append_inj_of_byteLength (ht.symm.trans hcut) (by simp [hlen])
  have hopens := (RuleTable.dispatch_eq_some hdispatch).2
  obtain ⟨x, rest, hhead, hspace, hfeed⟩ := Rule.opens_head hopens
  refine ⟨x, rest, hhead, hspace, hfeed, ?_⟩
  rintro rfl
  rw [hhead] at hopens
  obtain rfl := Rule.kind_of_opens_number hopens
  rw [← hkind]
  simp [SpanKind.refine]

theorem definition_behind {t : Text} (h : (s.opening (s.text ++ t)).Reading Rule.standard s)
    (hs : s.kind.isDefinition = true) : t = [] ∨ dedents s.indent [] t = true := by
  obtain ⟨hending, htrail⟩ := Rule.definition_ending hs
  rcases h.behind_cases htrail with hnil | hcloses | ⟨hkind, -⟩
  · exact Or.inl hnil
  · rw [hending] at hcloses
    exact Or.inr hcloses
  · rw [hkind] at hs
    cases hs

end Opening.Reading

/-! ## Spans in their source -/

/-- The span reads the source between `front` and `behind`. -/
structure Span.ReadIn (source : Text) (s : Span) (front behind : Text) : Prop where
  source_eq : source = front ++ (s.text ++ behind)
  start_eq : s.start = Text.byteLength front
  reading : (s.opening (s.text ++ behind)).Reading Rule.standard s

section

variable {options : ScanOptions} {source front behind u v : Text} {tree s c : Span} {k : Nat}

theorem scan_readIn (h : scan options source = .ok tree) (hs : s ∈ tree.preorder) :
    ∃ front behind, s.ReadIn source front behind := by
  obtain ⟨front, t, ht, hstart, hread⟩ := Rule.standard_regular.scan_placed h s hs
  obtain ⟨behind, hbehind⟩ := hread.text_eq
  simp only [Nat.zero_add, Span.opening] at ht hstart hbehind
  subst hbehind
  exact ⟨front, behind, ht, hstart, hread⟩

namespace Span.ReadIn

theorem stop_eq (hs : s.ReadIn source front behind) :
    s.stop = s.start + Text.byteLength s.text := hs.reading.stop_eq

theorem child (h : scan options source = .ok tree) (hmem : s ∈ tree.preorder)
    (hs : s.ReadIn source front behind) (hc : c ∈ s.children) :
    ∃ a b, c.ReadIn source (front ++ a) b ∧ s.text ++ behind = a ++ (c.text ++ b) ∧
      c.start = s.start + Text.byteLength a := by
  obtain ⟨front', b, hread⟩ := scan_readIn h (Span.preorder_trans (Span.child_mem_preorder hc) hmem)
  have hin : s.start + _ ≤ c.start ∧ _ := hs.reading.inside c hc
  have hstart := hs.start_eq
  have hstart' := hread.start_eq
  obtain ⟨a, rfl, htext⟩ :=
    Text.append_split_of_le (hs.source_eq.symm.trans hread.source_eq) (by omega)
  rw [Text.byteLength_append] at hstart'
  exact ⟨a, b, hread, htext, by omega⟩

/-- A child around a line feed that ends in the spaces behind it. -/
theorem child_around (h : scan options source = .ok tree) (hmem : s ∈ tree.preorder)
    (hs : s.ReadIn source front behind) (hc : c ∈ s.children)
    (htext : s.text ++ behind = u ++ '\n' :: (List.replicate k ' ' ++ v))
    (hle : c.start ≤ s.start + Text.byteLength u) (hlt : s.start + Text.byteLength u < c.stop)
    (hstop : c.stop ≤ s.start + Text.byteLength u + 1 + k) :
    ∃ a w i j, c.ReadIn source (front ++ a) (List.replicate j ' ' ++ v) ∧
      c.text = w ++ '\n' :: List.replicate i ' ' ∧ w ≠ [] := by
  obtain ⟨a, b, hread, hsplit, hstart⟩ := hs.child h hmem hc
  have hlen := hread.stop_eq
  have hfeed : ('\n' : Char).utf8Size = 1 := rfl
  obtain ⟨w, rfl, hw⟩ := Text.append_split_of_le (hsplit.symm.trans htext) (by omega)
  rw [Text.byteLength_append] at hlt hstop
  have hw' : (w ++ ['\n']) ++ (List.replicate k ' ' ++ v) = c.text ++ b := by simp [hw]
  obtain ⟨x, hx, hxb⟩ := Text.append_split_of_le hw' (by simp; omega)
  have hsize := congrArg Text.byteLength hx
  simp only [Text.byteLength_append, Text.byteLength_cons, Text.byteLength_nil] at hsize
  obtain ⟨y, hy, rfl⟩ := Text.append_split_of_le hxb.symm (by simp; omega)
  obtain ⟨-, hxs, hys⟩ := List.append_eq_replicate_iff.mp hy.symm
  refine ⟨a, w, x.length, y.length, by rwa [← hys], by rw [hx, ← hxs]; simp, ?_⟩
  rintro rfl
  obtain ⟨d, rest, hd, -, hne, -⟩ := hs.reading.head hc hsplit hstart
  rw [hw] at hd
  exact hne (List.cons.inj hd).1.symm

end Span.ReadIn

/-- The end of a span that closes in front of line feeds only; a decorator ends with its definition,
which does so too. -/
theorem Span.ReadIn.lineFeed_of_closes (h : scan options source = .ok tree)
    (hmem : s ∈ tree.preorder) (hs : s.ReadIn source front behind)
    (htrail : (Rule.standard s.kind).trailing = 0)
    (hcloses : ∀ indent cur, (Rule.standard s.kind).ending.closes indent cur = true →
      ∃ rest, cur.ahead = '\n' :: rest) : behind = [] ∨ ∃ rest, behind = '\n' :: rest := by
  rcases hs.reading.behind_cases htrail with hnil | hfires | ⟨-, c, hc, hdef, hstop⟩
  · exact Or.inl hnil
  · exact Or.inr (hcloses _ _ hfires)
  · obtain ⟨a, b, hread, hsplit, hstart⟩ := hs.child h hmem hc
    have hlen := hs.stop_eq
    have hlen' := hread.stop_eq
    rw [← List.append_assoc] at hsplit
    obtain ⟨-, rfl⟩ := Text.append_inj_of_byteLength hsplit
      (by rw [Text.byteLength_append]; omega)
    exact (hread.reading.definition_behind hdef).imp_right dedents_lineFeed

/-- A text of spaces in front of another one starts with no line feed. -/
theorem lineFeed_of_spaces {j : Nat} (h : List.replicate j ' ' ++ v = [] ∨
    ∃ rest, List.replicate j ' ' ++ v = '\n' :: rest) : v = [] ∨ ∃ rest, v = '\n' :: rest := by
  cases j with
  | zero => exact h
  | succ j =>
    rcases h with hnil | ⟨rest, hrest⟩
    · cases hnil
    · exact absurd (List.cons.inj hrest).1 (by decide)

/-- A span that ends in the spaces behind a line feed has another line feed behind it, or the end of
the source. -/
theorem scan_lineFeed_behind (h : scan options source = .ok tree) (hmem : s ∈ tree.preorder)
    (hkind : s.kind ≠ .file) (hs : s.ReadIn source front behind)
    (htext : s.text = u ++ '\n' :: List.replicate k ' ') (hu : u ≠ []) :
    behind = [] ∨ ∃ rest, behind = '\n' :: rest := by
  induction s using Span.tree_induction generalizing front behind u k with
  | node s ih =>
    have hlen := hs.stop_eq
    rcases Rule.ending_cases hkind with ⟨htrail, hcloses⟩ | hdelimited | hrow
    · exact hs.lineFeed_of_closes h hmem htrail hcloses
    · cases hopen : s.unterminated with
      | true =>
        have hend := (hs.reading.unterminated_end hopen).2
        rw [Text.byteLength_append] at hend
        exact Or.inl (Text.byteLength_eq_zero.mp (by omega))
      | false =>
        obtain ⟨body, hbody, -⟩ := hs.reading.closer_end hdelimited hopen
        obtain ⟨w, q, hcloser, hspace, hfeed⟩ := SpanKind.closer_last hdelimited
        have hlast := congrArg List.getLast? (htext.symm.trans hbody)
        rw [hcloser, ← List.append_assoc, List.getLast?_concat, List.getLast?_append,
          List.getLast?_eq_some_getLast (List.cons_ne_nil _ _), Option.some_or,
          Option.some.injEq] at hlast
        have hq : q ∈ '\n' :: List.replicate k ' ' := hlast ▸ List.getLast_mem _
        rcases List.mem_cons.mp hq with rfl | hq
        · exact absurd rfl hfeed
        · exact absurd (List.eq_of_mem_replicate hq) hspace
    · obtain ⟨htrail, hopener⟩ := Rule.opener_of_endsWithLine hrow
      have hfeed : ('\n' : Char).utf8Size = 1 := rfl
      have hsize := congrArg Text.byteLength htext
      simp only [Text.byteLength_append, Text.byteLength_cons, Text.byteLength_replicate] at hsize
      have hsplit : s.text ++ behind = u ++ '\n' :: (List.replicate k ' ' ++ behind) := by
        rw [htext, List.append_assoc, List.cons_append]
      by_cases hcov : Covered s.children (s.start + Text.byteLength u)
      · obtain ⟨c, hc, hle, hlt⟩ := hcov
        have hin := (hs.reading.inside c hc).2.2
        obtain ⟨a, w, i, j, hread, hctext, hw⟩ :=
          hs.child_around h hmem hc hsplit hle hlt (by omega)
        exact lineFeed_of_spaces (ih c hc (Span.preorder_trans (Span.child_mem_preorder hc) hmem)
          (hs.reading.opened c hc).kind_ne_file hread hctext hw)
      · -- the line feed lies in no child, so the span would have ended there
        have hwidth : (s.opening (s.text ++ behind)).width Rule.standard ≤ Text.byteLength u := by
          rw [Opening.width, Span.opening, hopener]
          exact Text.byteLength_pos hu
        have hquiet := hs.reading.quiet htrail (Text.byteLength u)
          ⟨u.reverse, '\n' :: (List.replicate k ' ' ++ behind)⟩ hwidth
          (by simp only [Span.opening]; omega)
          (Cursor.at?_eq_some_iff.mpr ⟨by simp [Span.opening, hsplit], by simp⟩)
          (List.cons_ne_nil _ _) hcov
        have hfires := Rule.closes_lineFeed hrow s.indent u.reverse
          (List.replicate k ' ' ++ behind)
        exact absurd (hquiet.2.symm.trans hfires) (by decide)

end

end DocCoverage
