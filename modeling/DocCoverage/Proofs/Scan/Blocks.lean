import DocCoverage.Proofs.Scan.LineHeads

/-!
# Blocks

A definition takes its indentation from the line it stands on and lasts up to the first line feed in
front of a line that is indented no deeper, neither empty nor a comment. The lines inside other
children do not count. A definition inside a definition is indented at least as deep, so its lines
belong to the outer block too.
-/
namespace DocCoverage

namespace Text

/-- Behind its spaces the line is empty or a comment, or the text ends. -/
def Uncounted (t : Text) : Prop :=
  ∃ k v, t = List.replicate k ' ' ++ v ∧ (v = [] ∨ ∃ c w, v = c :: w ∧ (c = '\n' ∨ c = '#'))

theorem eq_spaces_append (t : Text) :
    t = List.replicate (leadingSpaces t) ' ' ++ t.dropWhile (· == ' ') := by
  have hspaces : t.takeWhile (· == ' ') = List.replicate (leadingSpaces t) ' ' :=
    List.eq_replicate_of_mem fun c hc => by
      simpa using List.all_eq_true.mp List.all_takeWhile c hc
  rw [← hspaces, List.takeWhile_append_dropWhile]

theorem Uncounted.split {t g r : Text} {c : Char} (h : t.Uncounted) (ht : t = g ++ c :: r)
    (hspace : c ≠ ' ') (hfeed : c ≠ '\n') (hcomment : c ≠ '#') :
    ∃ k d w, (d = '\n' ∨ d = '#') ∧ g = List.replicate k ' ' ++ d :: w := by
  obtain ⟨k, v, rfl, hv⟩ := h
  obtain ⟨w, rfl, rfl⟩ := split_spaces ht hspace
  obtain ⟨d, v, hdv, hd⟩ := hv.resolve_left (by simp)
  cases w with
  | nil =>
    obtain ⟨rfl, -⟩ := List.cons.inj hdv
    rcases hd with rfl | rfl
    · exact absurd rfl hfeed
    · exact absurd rfl hcomment
  | cons e w =>
    obtain ⟨rfl, -⟩ := List.cons.inj hdv
    exact ⟨k, e, w, hd, rfl⟩

end Text

theorem exists_of_dedents {indent : Nat} {t : Text} (h : dedents indent [] t = true) :
    ∃ k c rest, t = '\n' :: (List.replicate k ' ' ++ c :: rest) ∧ k ≤ indent ∧
      c ≠ '\n' ∧ c ≠ '#' ∧ c ≠ ' ' := by
  obtain ⟨t, rfl⟩ := dedents_lineFeed h
  simp only [dedents, Bool.and_eq_true, decide_eq_true_eq] at h
  obtain ⟨hle, hline⟩ := h
  cases hrest : t.dropWhile (· == ' ') with
  | nil =>
    rw [hrest] at hline
    cases hline
  | cons c rest =>
    have hspace : c ≠ ' ' := by
      simpa [hrest] using List.head_dropWhile_not (p := (· == ' ')) (l := t) (by simp [hrest])
    rw [hrest] at hline
    simp only [Bool.and_eq_true, Bool.not_eq_true', Bool.or_eq_false_iff, beq_eq_false_iff_ne]
      at hline
    refine ⟨leadingSpaces t, c, rest, ?_, hle, hline.1.1, hline.1.2, hspace⟩
    rw [← hrest, ← Text.eq_spaces_append]

/-- A line that does not end the span is indented deeper or does not count. -/
theorem deeper_or_uncounted {indent : Nat} {t : Text} (h : dedents indent [] ('\n' :: t) = false) :
    indent < leadingSpaces t ∨ t.Uncounted := by
  by_cases hle : leadingSpaces t ≤ indent
  · refine Or.inr ⟨leadingSpaces t, t.dropWhile (· == ' '), t.eq_spaces_append, ?_⟩
    cases hrest : t.dropWhile (· == ' ') with
    | nil => exact Or.inl rfl
    | cons c rest =>
      refine Or.inr ⟨c, rest, rfl, ?_⟩
      simpa [dedents, hle, hrest, or_iff_not_imp_left] using h
  · exact Or.inl (Nat.lt_of_not_le hle)

/-! ## Places between children -/

/-- No span reaches over the offset. -/
def Clear (spans : List Span) (pos : Nat) : Prop := ∀ c ∈ spans, c.start < pos → c.stop ≤ pos

section

variable {spans : List Span} {pos : Nat}

theorem Clear.succ (h : ¬ Covered spans pos) : Clear spans (pos + 1) := by
  intro c hc hlt
  by_contra hle
  exact h ⟨c, hc, by omega, by omega⟩

theorem Clear.bare (h : Clear spans pos) (hno : ∀ c ∈ spans, c.start ≠ pos) :
    ¬ Covered spans pos := by
  rintro ⟨c, hc, hle, hlt⟩
  have hstart := hno c hc
  have hstop := h c hc (by omega)
  omega

end

namespace Rule

variable {k : SpanKind}

theorem definition_opener (h : k.isDefinition = true) (t : Text) : (standard k).opener t = 1 := by
  cases k with
  | classDef | function | method | classMethod => rfl
  | _ => cases h

/-- In a definition a comment opens at every number sign. -/
theorem dispatch_number_ne_none (h : k.isDefinition = true) (back t : Text) :
    RuleTable.dispatch standard (standard k) ⟨back, '#' :: t⟩ ≠ .none := by
  have hlegal : (standard k).children.contains .comment = true := by
    cases k with
    | classDef | function | method | classMethod => rfl
    | _ => cases h
  intro hnone
  have hcomment := List.find?_eq_none.mp hnone .comment (by decide)
  rw [hlegal] at hcomment
  exact hcomment rfl

end Rule

namespace Opening.Reading

variable {o : Opening} {s c : Span} {a v : Text}

theorem start_ne (h : o.Reading Rule.standard s) (hc : c ∈ s.children) {x : Char}
    (ht : o.text = a ++ x :: v) (hx : x = ' ' ∨ x = '\n') :
    c.start ≠ o.start + Text.byteLength a := by
  intro hstart
  obtain ⟨y, rest, hhead, hspace, hfeed, -⟩ := h.head hc ht hstart
  obtain ⟨rfl, -⟩ := List.cons.inj hhead
  exact hx.elim hspace hfeed

/-- Spaces lead from one place between children to another. -/
theorem clear_spaces {k : Nat} (h : o.Reading Rule.standard s)
    (ht : o.text = a ++ (List.replicate k ' ' ++ v))
    (hclear : Clear s.children (o.start + Text.byteLength a)) :
    Clear s.children (o.start + Text.byteLength (a ++ List.replicate k ' ')) := by
  induction k generalizing a with
  | zero => simpa using hclear
  | succ k ih =>
    rw [List.replicate_succ, List.cons_append] at ht
    have hnext := Clear.succ (hclear.bare fun c hc => h.start_ne hc ht (Or.inl rfl))
    have hsize : Text.byteLength (a ++ [' ']) = Text.byteLength a + 1 := by simp; rfl
    have hrest := ih (a := a ++ [' ']) (by simpa using ht) (by rwa [hsize])
    rwa [List.append_assoc, List.singleton_append, ← List.replicate_succ] at hrest

theorem clear_stop {table : RuleTable} (h : o.Reading table s) (hc : c ∈ s.children) :
    Clear s.children c.stop := by
  intro d hd hlt
  have hin := (h.inside c hc).2.1
  have hin' := (h.inside d hd).2.1
  rcases h.disjoint hc hd with rfl | hle | hle
  · exact Nat.le_refl _
  · omega
  · omega

theorem comment_behind {t : Text} (h : (s.opening (s.text ++ t)).Reading Rule.standard s)
    (hs : s.kind = .comment) : t = [] ∨ ∃ rest, t = '\n' :: rest := by
  rcases h.behind_cases (by rw [hs]; rfl) with hnil | hcloses | ⟨hkind, -⟩
  · exact Or.inl hnil
  · rw [hs] at hcloses
    exact Or.inr (Rule.starts_only (Rule.accepts_of_closes hcloses))
  · rw [hs] at hkind
    cases hkind

theorem line_of_own {m : Nat} {t u : Text} (h : (s.opening t).Reading Rule.standard s)
    (hs : s.kind.isDefinition = true)
    (own : (s.opening t).OwnLine Rule.standard s.children m u) (hlt : s.start + m < s.stop) :
    s.indent < leadingSpaces u ∨ u.Uncounted := by
  obtain ⟨hending, htrail⟩ := Rule.definition_ending hs
  obtain ⟨back, hplace⟩ := own.place
  have hquiet := h.quiet htrail m _ own.behind (by simp only [Span.opening]; omega) hplace
    (List.cons_ne_nil _ _) own.bare
  have hstays := hquiet.2
  simp only [Span.opening, hending] at hstays
  exact deeper_or_uncounted hstays

/-- At a number sign of a definition, between its children, one of them is a comment that starts
there. -/
theorem comment_at {t : Text} (h : (s.opening t).Reading Rule.standard s)
    (hs : s.kind.isDefinition = true) (ht : t = a ++ '#' :: v)
    (hwidth : (s.opening t).width Rule.standard ≤ Text.byteLength a)
    (hlt : s.start + Text.byteLength a < s.stop)
    (hclear : Clear s.children (s.start + Text.byteLength a)) :
    ∃ e ∈ s.children, e.start = s.start + Text.byteLength a ∧ e.kind = .comment := by
  by_cases hcov : Covered s.children (s.start + Text.byteLength a)
  · obtain ⟨e, he, hle, hend⟩ := hcov
    have hstart : e.start = s.start + Text.byteLength a := by
      have hstop := hclear e he
      omega
    obtain ⟨x, rest, hhead, -, -, hcomment⟩ := h.head he ht hstart
    exact ⟨e, he, hstart, hcomment (List.cons.inj hhead).1.symm⟩
  · have hplace : Cursor.at? t (Text.byteLength a) = some ⟨a.reverse, '#' :: v⟩ :=
      Cursor.at?_eq_some_iff.mpr ⟨by rw [ht, List.reverse_reverse], Text.byteLength_reverse a⟩
    have hquiet := h.quiet (Rule.definition_ending hs).2 _ _ hwidth
      (by simp only [Span.opening]; omega) hplace (List.cons_ne_nil _ _) hcov
    exact absurd hquiet.1 (Rule.dispatch_number_ne_none hs _ _)

end Opening.Reading

/-! ## Definitions in definitions -/

section

variable {options : ScanOptions} {source front behind t : Text} {tree s c : Span} {m : Nat}

namespace Span.ReadIn

/-- Behind a comment in front of another child the span has a line feed. -/
theorem ownLine_behind_comment (h : scan options source = .ok tree) (hmem : s ∈ tree.preorder)
    (hs : s.ReadIn source front behind) {e : Span} (he : e ∈ s.children) (hkind : e.kind = .comment)
    (hc : c ∈ s.children) (hle : e.stop ≤ c.start) :
    ∃ m t, s.start + m = e.stop ∧ e.stop < c.start ∧
      (s.opening (s.text ++ behind)).OwnLine Rule.standard s.children m t := by
  obtain ⟨a, b, hread, hsplit, hstart⟩ := hs.child h hmem he
  obtain ⟨a', b', hread', hsplit', hstart'⟩ := hs.child h hmem hc
  obtain ⟨x, rest, hhead, -, hfeed, -⟩ := hs.reading.head hc hsplit' hstart'
  have hlen := hread.stop_eq
  have hin := hs.reading.inside e he
  rw [← List.append_assoc] at hsplit
  obtain ⟨g, rfl, hb⟩ := Text.append_split_of_le (hsplit.symm.trans hsplit')
    (by rw [Text.byteLength_append]; omega)
  rw [hhead] at hb
  rcases hread.reading.comment_behind hkind with rfl | ⟨t, rfl⟩
  · exact absurd hb (by simp)
  · cases g with
    | nil => exact absurd (List.cons.inj hb).1.symm hfeed
    | cons y g =>
      have hsize := y.utf8Size_pos
      simp only [Text.byteLength_append, Text.byteLength_cons] at hstart'
      have hstop : e.stop = s.start + Text.byteLength (a ++ e.text) := by
        rw [Text.byteLength_append]
        omega
      refine ⟨Text.byteLength (a ++ e.text), t, hstop.symm, by omega, ?_, ?_, ?_⟩
      · exact ⟨(a ++ e.text).reverse, Cursor.at?_eq_some_iff.mpr
          ⟨by rw [List.reverse_reverse]; exact hsplit, Text.byteLength_reverse _⟩⟩
      · have hwidth := hin.1
        simp only [Span.opening] at hwidth ⊢
        omega
      · have hclear := hs.reading.clear_stop he
        rw [hstop] at hclear
        exact hclear.bare fun d hd => hs.reading.start_ne hd hsplit (Or.inr rfl)

/-- Behind a line feed of a definition in front of a line that does not count comes another one,
before any definition starts. -/
theorem ownLine_behind_uncounted (h : scan options source = .ok tree) (hmem : s ∈ tree.preorder)
    (hs : s.ReadIn source front behind) (hdef : s.kind.isDefinition = true) (hc : c ∈ s.children)
    (hcdef : c.kind.isDefinition = true)
    (own : (s.opening (s.text ++ behind)).OwnLine Rule.standard s.children m t)
    (hlt : s.start + m < c.start) (huncounted : t.Uncounted) :
    ∃ m' t', m < m' ∧ s.start + m' < c.start ∧
      (s.opening (s.text ++ behind)).OwnLine Rule.standard s.children m' t' := by
  obtain ⟨a, b, hread, hsplit, hstart⟩ := hs.child h hmem hc
  obtain ⟨x, rest, hhead, hspace, hfeed, hnumber⟩ := hs.reading.head hc hsplit hstart
  have hcomment : x ≠ '#' := fun heq => by
    rw [hnumber heq] at hcdef
    cases hcdef
  rw [hhead] at hsplit
  obtain ⟨back, hplace⟩ := own.place
  obtain ⟨hcut, hlen⟩ := Cursor.at?_eq_some_iff.mp hplace
  simp only [Span.opening] at hcut hlen
  have hone : ('\n' : Char).utf8Size = 1 := rfl
  have hcut' : s.text ++ behind = (back.reverse ++ ['\n']) ++ t := by simp [hcut]
  obtain ⟨g, rfl, ht⟩ := Text.append_split_of_le (hcut'.symm.trans hsplit) (by simp; omega)
  obtain ⟨k, y, w, hy, rfl⟩ := huncounted.split ht hspace hfeed hcomment
  have hfront : s.text ++ behind =
      (back.reverse ++ ['\n']) ++ (List.replicate k ' ' ++ y :: (w ++ x :: rest)) := by
    simp [hcut', ht]
  have hclear : Clear s.children (s.start + Text.byteLength (back.reverse ++ ['\n'])) := by
    have hsucc := Clear.succ own.bare
    simpa [Span.opening, hlen, hone, Nat.add_assoc] using hsucc
  replace hclear := hs.reading.clear_spaces hfront hclear
  rw [← List.append_assoc] at hfront
  have hplace : Text.byteLength (back.reverse ++ ['\n'] ++ List.replicate k ' ') = m + 1 + k := by
    simp [hlen, hone, Nat.add_assoc]
  generalize back.reverse ++ ['\n'] ++ List.replicate k ' ' = p at hfront hclear hplace
  have hsize := y.utf8Size_pos
  simp only [Text.byteLength_append, Text.byteLength_reverse, Text.byteLength_cons,
    Text.byteLength_nil, Text.byteLength_replicate] at hstart
  have hwidth : (s.opening (s.text ++ behind)).width Rule.standard ≤ m := own.behind
  rcases hy with rfl | rfl
  · refine ⟨Text.byteLength p, w ++ x :: rest, by omega, by omega, ⟨p.reverse, ?_⟩, by omega, ?_⟩
    · exact Cursor.at?_eq_some_iff.mpr ⟨by rw [List.reverse_reverse]; exact hfront, by simp⟩
    · exact hclear.bare fun d hd => hs.reading.start_ne hd hfront (Or.inr rfl)
  · have hin := hs.reading.inside c hc
    obtain ⟨e, he, hestart, hekind⟩ := hs.reading.comment_at hdef hfront (by omega)
      (by omega) hclear
    have hle : e.stop ≤ c.start := by
      rcases hs.reading.disjoint he hc with rfl | hle | hle
      · rw [hekind] at hcdef
        cases hcdef
      · exact hle
      · omega
    have hin' := hs.reading.inside e he
    obtain ⟨m', t', hstop, hlt', own'⟩ := hs.ownLine_behind_comment h hmem he hekind hc hle
    exact ⟨m', t', by omega, by omega, own'⟩

theorem indent_le (h : scan options source = .ok tree) (hmem : s ∈ tree.preorder)
    (hs : s.ReadIn source front behind) (hdef : s.kind.isDefinition = true) (hc : c ∈ s.children)
    (hcdef : c.kind.isDefinition = true) : s.indent ≤ c.indent := by
  have hforce := scan_indents h hmem hs.source_eq hs.start_eq c hc
  have hstop := hs.reading.inside c hc
  generalize c.indent = i at hforce
  cases hforce with
  | opened none => exact Nat.le_refl _
  | behind m t own before last =>
    simp only [Span.opening] at before last hstop
    rcases hs.reading.line_of_own hdef own (by omega) with hlt | huncounted
    · exact Nat.le_of_lt hlt
    · obtain ⟨m', t', hm, hlt, own'⟩ :=
        hs.ownLine_behind_uncounted h hmem hdef hc hcdef own (by omega) huncounted
      exact absurd own' (last m' t' hm (by omega))

end Span.ReadIn

end

/-! ## Blocks of definitions -/

/-- The definition itself and those reached from it through definitions only. -/
inductive Span.InBlock (s : Span) : Span → Prop
  | self : InBlock s s
  | nested {d c : Span} (outer : InBlock s d) (child : c ∈ d.children)
      (definition : c.kind.isDefinition = true) : InBlock s c

/-- A definition and its lines in the source. -/
structure Span.Block (source : Text) (s : Span) : Prop where
  /-- With only spaces before it on its line, the definition is indented by these. -/
  indent : ∀ front k rest, source = front ++ '\n' :: (List.replicate k ' ' ++ rest) →
    s.start = Text.byteLength front + 1 + k → s.indent = k
  /-- With only spaces before it in the source, it is not indented. -/
  first : ∀ k rest, source = List.replicate k ' ' ++ rest → s.start = k → s.indent = 0
  /-- It ends with the source or in front of a line that is indented no deeper. -/
  ends : s.stop = Text.byteLength source ∨ ∃ front k c rest,
    source = front ++ '\n' :: (List.replicate k ' ' ++ c :: rest) ∧
      s.stop = Text.byteLength front ∧ k ≤ s.indent ∧ c ≠ '\n' ∧ c ≠ '#' ∧ c ≠ ' '
  /-- A line feed that lies in the block, outside the children of the innermost definition, stands
  in front of a line that is indented deeper or does not count. -/
  lines : ∀ d, s.InBlock d → ∀ front rest : Text, source = front ++ '\n' :: rest →
    d.start ≤ Text.byteLength front → Text.byteLength front < d.stop →
    ¬ Covered d.children (Text.byteLength front) → s.indent < leadingSpaces rest ∨ rest.Uncounted

section

variable {options : ScanOptions} {source front behind : Text} {tree s d : Span}

theorem Span.InBlock.indent_le (hd : s.InBlock d) (h : scan options source = .ok tree)
    (hs : s ∈ tree.preorder) (hdef : s.kind.isDefinition = true) :
    d ∈ tree.preorder ∧ d.kind.isDefinition = true ∧ s.indent ≤ d.indent := by
  induction hd with
  | self => exact ⟨hs, hdef, Nat.le_refl _⟩
  | nested outer child definition ih =>
    obtain ⟨hmem, houter, hle⟩ := ih
    obtain ⟨front, behind, hread⟩ := scan_readIn h hmem
    exact ⟨Span.preorder_trans (Span.child_mem_preorder child) hmem, definition,
      Nat.le_trans hle (hread.indent_le h hmem houter child definition)⟩

theorem Span.ReadIn.ends (hs : s.ReadIn source front behind) (hdef : s.kind.isDefinition = true) :
    s.stop = Text.byteLength source ∨ ∃ front k c rest,
      source = front ++ '\n' :: (List.replicate k ' ' ++ c :: rest) ∧
        s.stop = Text.byteLength front ∧ k ≤ s.indent ∧ c ≠ '\n' ∧ c ≠ '#' ∧ c ≠ ' ' := by
  have hsource := hs.source_eq
  have hstop : s.stop = Text.byteLength (front ++ s.text) := by
    rw [hs.stop_eq, hs.start_eq, Text.byteLength_append]
  rw [← List.append_assoc] at hsource
  rcases hs.reading.definition_behind hdef with rfl | hdedents
  · rw [List.append_nil] at hsource
    exact Or.inl (hsource ▸ hstop)
  · obtain ⟨k, c, rest, rfl, hle, hne⟩ := exists_of_dedents hdedents
    exact Or.inr ⟨front ++ s.text, k, c, rest, hsource, hstop, hle, hne⟩

/-- A line feed of a definition outside its children. -/
theorem Span.ReadIn.line (h : scan options source = .ok tree) (hmem : s ∈ tree.descendants)
    (hs : s.ReadIn source front behind) (hdef : s.kind.isDefinition = true) {front' rest : Text}
    (hsource : source = front' ++ '\n' :: rest) (hle : s.start ≤ Text.byteLength front')
    (hlt : Text.byteLength front' < s.stop)
    (hbare : ¬ Covered s.children (Text.byteLength front')) :
    s.indent < leadingSpaces rest ∨ rest.Uncounted := by
  have hstart := hs.start_eq
  obtain ⟨u, rfl, hsplit⟩ :=
    Text.append_split_of_le (hs.source_eq.symm.trans hsource) (by omega)
  rw [Text.byteLength_append] at hle hlt hbare
  have hu : u ≠ [] := by
    rintro rfl
    obtain ⟨x, r, hhead, -, hfeed⟩ := hs.head h hmem
    rw [hsplit] at hhead
    exact hfeed (List.cons.inj hhead).1.symm
  rw [← hstart] at hlt hbare
  refine hs.reading.line_of_own hdef ⟨⟨u.reverse, ?_⟩, ?_, hbare⟩ hlt
  · exact Cursor.at?_eq_some_iff.mpr ⟨by simp [Span.opening, hsplit], Text.byteLength_reverse u⟩
  · rw [Opening.width, Span.opening, Rule.definition_opener hdef]
    exact Text.byteLength_pos hu

/-- Every definition of a scanned tree is a block: it has the indentation of its line, and lasts up
to the first line that counts and is indented no deeper. -/
theorem scan_blocks (h : scan options source = .ok tree) (hs : s ∈ tree.preorder)
    (hdef : s.kind.isDefinition = true) : s.Block source := by
  have hne : ∀ d ∈ tree.preorder, d.kind.isDefinition = true → d ∈ tree.descendants := by
    intro d hd hddef
    refine (List.mem_cons.mp hd).resolve_left ?_
    rintro rfl
    rw [(file_stop h).1] at hddef
    cases hddef
  constructor
  · exact fun front k rest hsource hstart => scan_indent_line h (hne s hs hdef) hsource hstart
  · exact fun k rest hsource hstart => scan_indent_first h (hne s hs hdef) hsource hstart
  · obtain ⟨front, behind, hread⟩ := scan_readIn h hs
    exact hread.ends hdef
  · intro d hd front rest hsource hle hlt hbare
    obtain ⟨hmem, hddef, hindent⟩ := hd.indent_le h hs hdef
    obtain ⟨front', behind, hread⟩ := scan_readIn h hmem
    exact (hread.line h (hne d hmem hddef) hddef hsource hle hlt hbare).imp_left
      (Nat.lt_of_le_of_lt hindent)

/-- A method with an empty line, a comment further out, a docstring over two lines and a function in
it. -/
def blockSource : Text :=
  "class A:\n  def f(self):\n\n# x\n    '''a\nb'''\n    def g():\n      pass\n  y = 1\n"

theorem scan_blocks_nested : ∃ tree s d, scan {} blockSource = .ok tree ∧ s ∈ tree.preorder ∧
    s.kind = .method ∧ s.indent = 2 ∧ s.stop = 66 ∧ s.InBlock d ∧ d.indent = 4 ∧
    s.Block blockSource := by
  have htest : (scan {} blockSource).toOption.any (fun tree =>
      tree.preorder.any fun s => s.kind == .method && s.indent == 2 && s.stop == 66 &&
        s.children.any fun d => d.kind.isDefinition && d.indent == 4) = true := by
    decide +kernel
  obtain ⟨tree, htree, htest⟩ := scan_ok_of_any htest
  simp only [List.any_eq_true, Bool.and_eq_true, beq_iff_eq] at htest
  obtain ⟨s, hs, ⟨⟨hkind, hindent⟩, hstop⟩, d, hd, hdef, hdeep⟩ := htest
  exact ⟨tree, s, d, htree, hs, hkind, hindent, hstop, .nested .self hd hdef, hdeep,
    scan_blocks htree hs (by rw [hkind]; rfl)⟩

end

end DocCoverage
