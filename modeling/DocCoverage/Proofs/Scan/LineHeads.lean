import DocCoverage.Proofs.Scan.Indentation
import DocCoverage.Proofs.Scan.LineEnds

/-!
# Spans at the head of a line

A span with only spaces before it on its line is indented by these: the line feed before them lies
in the parent, and in none of its children, since no child ends in the spaces. On the first line of
the file there is no such line feed, and spaces do not count.
-/
namespace DocCoverage

theorem Text.leadingSpaces_replicate (k : Nat) {c : Char} (hc : c ≠ ' ') (t : Text) :
    leadingSpaces (List.replicate k ' ' ++ c :: t) = k := by
  rw [leadingSpaces, List.takeWhile_append_of_pos (by simp), List.takeWhile_cons_of_neg (by simpa)]
  simp

/-- A kind with children opens with one byte, the file with none. -/
theorem Rule.opener_le_one {k : SpanKind} (h : (standard k).children ≠ []) (t : Text) :
    (standard k).opener t ≤ 1 := by
  cases k with
  | file => exact Nat.zero_le 1
  | singleDocstring | doubleDocstring => exact absurd rfl h
  | _ => exact Nat.le_refl 1

section

variable {options : ScanOptions} {source front behind u v : Text} {tree s c : Span} {k : Nat}

namespace Span.ReadIn

variable {a t : Text}

/-- A span other than the file starts neither with a space nor with a line feed. -/
theorem head (h : scan options source = .ok tree) (hmem : s ∈ tree.descendants)
    (hs : s.ReadIn source front behind) :
    ∃ x rest, s.text ++ behind = x :: rest ∧ x ≠ ' ' ∧ x ≠ '\n' := by
  obtain ⟨q, hq, hsq⟩ := Span.exists_parent hmem
  obtain ⟨front', behind', hread⟩ := scan_readIn h hq
  obtain ⟨a, b, hchild, htext, hat⟩ := hread.child h hq hsq
  obtain ⟨-, hbehind⟩ := Text.append_inj_of_byteLength
    (hs.source_eq.symm.trans hchild.source_eq) (hs.start_eq.symm.trans hchild.start_eq)
  obtain ⟨x, rest, hhead, hspace, hfeed, -⟩ := hread.reading.head hsq htext hat
  exact ⟨x, rest, hbehind.trans hhead, hspace, hfeed⟩

/-- In front of a child stands the first character of the parent, unless that is the file. -/
theorem exists_head (h : scan options source = .ok tree) (hmem : s ∈ tree.descendants)
    (hs : s.ReadIn source front behind) (hc : c ∈ s.children)
    (hsplit : s.text ++ behind = a ++ t) (hstart : c.start = s.start + Text.byteLength a) :
    ∃ x rest, a = x :: rest ∧ x ≠ ' ' ∧ x ≠ '\n' := by
  obtain ⟨x, rest, hhead, hspace, hfeed⟩ := hs.head h hmem
  have hlt := Opening.Placed.start_lt Rule.standard_regular (fun d hd =>
    Rule.standard_regular.scan_placed h d (Span.preorder_trans hd (List.mem_cons_of_mem _ hmem)))
    (scan_kind_ne_file h s hmem) c (Span.mem_descendants.mpr ⟨c, hc, c.self_mem_preorder⟩)
  cases a with
  | nil =>
    rw [Text.byteLength_nil] at hstart
    omega
  | cons y a =>
    rw [hsplit] at hhead
    obtain ⟨rfl, -⟩ := List.cons.inj hhead
    exact ⟨y, a, rfl, hspace, hfeed⟩

/-- Behind a line feed and spaces stands the first character of the child. -/
theorem head_behind_spaces (hs : s.ReadIn source front behind) (hc : c ∈ s.children)
    (hsplit : s.text ++ behind = u ++ '\n' :: (List.replicate k ' ' ++ v))
    (hstart : c.start = s.start + Text.byteLength u + 1 + k) :
    ∃ x rest, v = x :: rest ∧ x ≠ ' ' ∧ x ≠ '\n' := by
  have hfeed : ('\n' : Char).utf8Size = 1 := rfl
  have hplace : s.text ++ behind = (u ++ '\n' :: List.replicate k ' ') ++ v := by
    rw [hsplit, List.append_assoc, List.cons_append]
  have hstart' : c.start = s.start + Text.byteLength (u ++ '\n' :: List.replicate k ' ') := by
    simp only [Text.byteLength_append, Text.byteLength_cons, Text.byteLength_replicate]
    omega
  obtain ⟨x, rest, hhead, hspace, hfeed, -⟩ := hs.reading.head hc hplace hstart'
  exact ⟨x, rest, hhead, hspace, hfeed⟩

theorem ownLine (h : scan options source = .ok tree) (hmem : s ∈ tree.preorder)
    (hs : s.ReadIn source front behind) (hc : c ∈ s.children)
    (hsplit : s.text ++ behind = u ++ '\n' :: (List.replicate k ' ' ++ v))
    (hstart : c.start = s.start + Text.byteLength u + 1 + k) (hu : u ≠ [] ∨ s.kind = .file) :
    (s.opening (s.text ++ behind)).OwnLine Rule.standard s.children (Text.byteLength u)
      (List.replicate k ' ' ++ v) where
  place := ⟨u.reverse, Cursor.at?_eq_some_iff.mpr ⟨by simp [Span.opening, hsplit], by simp⟩⟩
  behind := by
    rcases hu with hu | hkind
    · have hpos := Text.byteLength_pos hu
      have hone := Rule.opener_le_one (k := s.kind) (fun hnil => by
        rw [hs.reading.children_eq_nil hnil] at hc
        cases hc) (s.text ++ behind)
      exact Nat.le_trans hone hpos
    · simp only [Opening.width, Span.opening, hkind]
      exact Nat.zero_le _
  bare := by
    rintro ⟨d, hd, hle, hlt⟩
    have hin := (hs.reading.inside c hc).2.1
    have hin' := (hs.reading.inside d hd).2.1
    simp only [Span.opening] at hle hlt
    have hstop : d.stop ≤ c.start := by
      rcases hs.reading.disjoint hd hc with rfl | hdc | hcd
      · omega
      · exact hdc
      · omega
    obtain ⟨a, w, i, j, hread, htext, hw⟩ :=
      hs.child_around h hmem hd hsplit hle hlt (by omega)
    have hbehind := lineFeed_of_spaces (scan_lineFeed_behind h
      (Span.preorder_trans (Span.child_mem_preorder hd) hmem)
      (hs.reading.opened d hd).kind_ne_file hread htext hw)
    -- but what stands there is the first character of the child
    obtain ⟨x, rest, hhead, -, hfeed⟩ := hs.head_behind_spaces hc hsplit hstart
    rcases hbehind with hnil | ⟨rest', hrest⟩
    · rw [hhead] at hnil
      cases hnil
    · rw [hhead] at hrest
      exact hfeed (List.cons.inj hrest).1

theorem indent_eq (h : scan options source = .ok tree) (hmem : s ∈ tree.preorder)
    (hs : s.ReadIn source front behind) (hc : c ∈ s.children)
    (hsplit : s.text ++ behind = u ++ '\n' :: (List.replicate k ' ' ++ v))
    (hstart : c.start = s.start + Text.byteLength u + 1 + k) (hu : u ≠ [] ∨ s.kind = .file) :
    c.indent = k := by
  have hforce := scan_indents h hmem hs.source_eq hs.start_eq c hc
  have hown := hs.ownLine h hmem hc hsplit hstart hu
  obtain ⟨x, rest, rfl, hspace, -⟩ := hs.head_behind_spaces hc hsplit hstart
  rw [hforce.eq_leadingSpaces hown (by simp only [Span.opening]; omega) ?_,
    Text.leadingSpaces_replicate k hspace]
  -- between the line feed and the child there are only spaces
  intro m t hlt hm own
  obtain ⟨back, hat⟩ := own.place
  obtain ⟨hcut, hlen⟩ := Cursor.at?_eq_some_iff.mp hat
  simp only [Span.opening] at hcut hlen hm
  have hfeed : ('\n' : Char).utf8Size = 1 := rfl
  have hfront : s.text ++ behind = (u ++ ['\n']) ++ (List.replicate k ' ' ++ x :: rest) := by
    simp [hsplit]
  obtain ⟨g, hg, hrest⟩ := Text.append_split_of_le (hfront.symm.trans hcut)
    (by simp; omega)
  obtain ⟨w, rfl, -⟩ := Text.split_spaces hrest (by decide)
  have hsize := congrArg Text.byteLength hg
  simp only [Text.byteLength_append, Text.byteLength_reverse, Text.byteLength_cons,
    Text.byteLength_nil, Text.byteLength_replicate] at hsize
  omega

end Span.ReadIn

/-- A span with only spaces before it on its line is indented by these. -/
theorem scan_indent_line (h : scan options source = .ok tree) (hc : c ∈ tree.descendants)
    {rest : Text} (hsource : source = front ++ '\n' :: (List.replicate k ' ' ++ rest))
    (hstart : c.start = Text.byteLength front + 1 + k) : c.indent = k := by
  obtain ⟨q, hq, hcq⟩ := Span.exists_parent hc
  obtain ⟨f, g, hread⟩ := scan_readIn h hq
  obtain ⟨a, b, hchild, hsplit, hat⟩ := hread.child h hq hcq
  have hone : ('\n' : Char).utf8Size = 1 := rfl
  have hfront := hchild.start_eq
  have hsource' : source = (front ++ '\n' :: List.replicate k ' ') ++ rest := by simp [hsource]
  obtain ⟨hlines, rfl⟩ := Text.append_inj_of_byteLength
    (hchild.source_eq.symm.trans hsource') (by simp at hfront ⊢; omega)
  have hqstart := hread.start_eq
  by_cases hle : Text.byteLength f ≤ Text.byteLength front
  · -- the line feed lies in the parent
    obtain ⟨u, rfl, rfl⟩ := Text.append_split_of_le hlines hle
    rw [Text.byteLength_append] at hstart
    refine hread.indent_eq h hq hcq (by simpa using hsplit) (by omega) ?_
    rcases List.mem_cons.mp hq with rfl | hq
    · exact Or.inr (file_stop h).1
    · obtain ⟨x, r, hx, -, hfeed⟩ := hread.exists_head h hq hcq hsplit hat
      refine Or.inl fun hnil => ?_
      rw [hnil] at hx
      exact hfeed (List.cons.inj hx).1.symm
  · -- the parent would start in the spaces
    obtain ⟨w, rfl, hw⟩ := Text.append_split_of_le hlines.symm (by omega)
    rcases List.mem_cons.mp hq with rfl | hq
    · rw [(file_stop h).2.1] at hqstart
      omega
    · obtain ⟨x, r, rfl, hspace, -⟩ := hread.exists_head h hq hcq hsplit hat
      cases w with
      | nil => simp at hle
      | cons y w =>
        have hmem : x ∈ List.replicate k ' ' := by simp [(List.cons.inj hw).2]
        exact absurd (List.eq_of_mem_replicate hmem) hspace

theorem scan_file_indent (h : scan options source = .ok tree) : tree.indent = 0 := by
  obtain ⟨consumed, h⟩ := RuleTable.scan_eq_ok_iff.mp h
  exact (scanSpan_sound Rule.standard_regular h).reading.indent_eq

/-- Spaces at the front of the file do not count. -/
theorem scan_indent_first (h : scan options source = .ok tree) (hc : c ∈ tree.descendants)
    {rest : Text} (hsource : source = List.replicate k ' ' ++ rest) (hstart : c.start = k) :
    c.indent = 0 := by
  obtain ⟨q, hq, hcq⟩ := Span.exists_parent hc
  obtain ⟨f, g, hread⟩ := scan_readIn h hq
  obtain ⟨a, b, hchild, hsplit, hat⟩ := hread.child h hq hcq
  have hfront := hchild.start_eq
  obtain ⟨hspaces, rfl⟩ := Text.append_inj_of_byteLength
    (hchild.source_eq.symm.trans hsource) (by rw [Text.byteLength_replicate]; omega)
  rcases List.mem_cons.mp hq with rfl | hq'
  · obtain rfl : f = [] := Text.byteLength_eq_zero.mp
      (hread.start_eq.symm.trans (file_stop h).2.1)
    have hforce := scan_indents h hq hread.source_eq hread.start_eq c hcq
    generalize c.indent = i at hforce
    cases hforce with
    | opened none => exact scan_file_indent h
    | behind m t own before last =>
      obtain ⟨back, hplace⟩ := own.place
      obtain ⟨hcut, hlen⟩ := Cursor.at?_eq_some_iff.mp hplace
      rw [List.nil_append] at hspaces
      simp only [Span.opening, hsplit, hspaces] at hcut hlen before
      obtain ⟨w, hw, -⟩ := Text.split_spaces hcut (by decide)
      have hsize := congrArg Text.byteLength hw
      simp only [Text.byteLength_append, Text.byteLength_reverse,
        Text.byteLength_replicate] at hsize
      omega
  · obtain ⟨x, r, rfl, hspace, -⟩ := hread.exists_head h hq' hcq hsplit hat
    have hmem : x ∈ List.replicate k ' ' := by simp [← hspaces]
    exact absurd (List.eq_of_mem_replicate hmem) hspace

end

end DocCoverage
