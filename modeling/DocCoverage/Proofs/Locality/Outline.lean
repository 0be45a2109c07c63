import DocCoverage.Analysis
import DocCoverage.Proofs.Grammar.Standard
import DocCoverage.Proofs.Locality.Seam
import DocCoverage.Proofs.Scan.Extents

/-!
# Outlines of adjoining files

What an outline says of a definition, apart from its offsets, is read off the texts of the spans
and the gaps between them. Neither a shift of all offsets nor the loss of a line feed at the end
of the definitions changes it. So the outline of two adjoining files lists the definitions of the
first and then those of the second. Nothing is said of the node of the file itself.
-/
namespace DocCoverage

namespace Text

theorem slice?_concat {x : Text} (y : Text) {i : Nat} (hi : i ≤ byteLength x) :
    slice? (x ++ y) i (byteLength x + byteLength y) =
      (slice? x i (byteLength x)).map (· ++ y) := by
  ext m
  simp only [slice?_eq_some_iff, Option.map_eq_some_iff]
  constructor
  · rintro ⟨a, b, hab, ha, hm⟩
    obtain ⟨g, rfl, hg⟩ := append_split_of_le hab.symm (by omega)
    have hlen := congrArg byteLength hg
    simp only [byteLength_append] at hlen hm
    obtain rfl : b = [] := byteLength_eq_zero.mp (by omega)
    exact ⟨g, ⟨a, [], by simp, ha, by simp; omega⟩, by simpa using hg.symm⟩
  · rintro ⟨g, ⟨a, b, rfl, ha, hm⟩, rfl⟩
    simp only [byteLength_append] at hm
    obtain rfl : b = [] := byteLength_eq_zero.mp (by omega)
    exact ⟨a, [], by simp, ha, by simp; omega⟩

end Text

namespace Span

section

variable (n : Nat) (s : Span)

theorem gap?_shift (first last : Nat) :
    (s.move (.shift n)).gap? (first + n) (last + n) = s.gap? first last := by
  simp [gap?, Nat.add_sub_add_right]

theorem gapsFrom?_shift (first : Nat) (cs : List Span) :
    (s.move (.shift n)).gapsFrom? (first + n) (cs.map (move (.shift n))) =
      s.gapsFrom? first cs := by
  induction cs generalizing first with
  | nil => simp only [List.map_nil, gapsFrom?, move_stop, Move.shift_stop, gap?_shift]
  | cons c cs ih =>
    simp only [List.map_cons, gapsFrom?, move_start, move_stop, Move.shift_start, Move.shift_stop,
      gap?_shift, ih]

theorem headerEndFrom?_shift (first : Nat) (cs : List Span) :
    (s.move (.shift n)).headerEndFrom? (first + n) (cs.map (move (.shift n))) =
      (s.headerEndFrom? first cs).map (Option.map (· + n)) := by
  have hadd : ∀ i, first + n + i + 1 = first + i + 1 + n := fun i => by omega
  induction cs generalizing first with
  | nil =>
    simp only [List.map_nil, headerEndFrom?, move_stop, Move.shift_stop, gap?_shift]
    cases s.gap? first s.stop with
    | none => rfl
    | some t => cases ht : colonOffset t <;> simp [ht, hadd]
  | cons c cs ih =>
    have hrest := ih c.stop fun i => by omega
    simp only [List.map_cons, headerEndFrom?, move_start, move_stop, Move.shift_start,
      Move.shift_stop, gap?_shift, hrest]
    cases s.gap? first c.start with
    | none => rfl
    | some t => cases ht : colonOffset t <;> simp [ht, hadd]

theorem docstringFrom?_shift (first : Nat) (cs : List Span) :
    (s.move (.shift n)).docstringFrom? (first + n) (cs.map (move (.shift n))) =
      (s.docstringFrom? first cs).map (Option.map (move (.shift n))) := by
  induction cs generalizing first with
  | nil => rfl
  | cons c cs ih =>
    simp only [List.map_cons, docstringFrom?, move_start, move_stop, Move.shift_start,
      Move.shift_stop, move_kind, Nat.add_lt_add_iff_right, gap?_shift, ih]
    split
    · rfl
    · cases s.gap? first c.start with
      | none => rfl
      | some t =>
        simp only [Option.bind_eq_bind, Option.bind_some]
        split
        · rfl
        · split
          · rfl
          · simp only [Option.pure_def, Option.map_some]
            split <;> rfl

theorem faithful_shift : s.Faithful (.shift n) where
  name := by simp [name]
  own _ := by
    simp only [ownText, ownText?, move_children, move_start, Move.shift_start, gapsFrom?_shift]
  doc := by
    have hdoc : (s.move (.shift n)).docstring? =
        s.docstring?.map (Option.map (move (.shift n))) := by
      simp only [docstring?, move_children, move_start, Move.shift_start, headerEndFrom?_shift]
      cases s.headerEndFrom? s.start s.children with
      | none => rfl
      | some first =>
        cases first with
        | none => rfl
        | some first => exact docstringFrom?_shift n s first s.children
    rw [docstring, docstring, hdoc]
    cases s.docstring? with
    | none => rfl
    | some doc => cases doc <;> simp

end

theorem colonOffset_concat (t : Text) : colonOffset (t ++ ['\n']) = colonOffset t := by
  have hmem : (t ++ ['\n']).contains ':' = t.contains ':' := by simp
  have htake : (t ++ ['\n']).takeWhile (· != ':') =
      if t.contains ':' then t.takeWhile (· != ':') else t ++ ['\n'] := by
    induction t with
    | nil => rfl
    | cons c t ih =>
      by_cases hc : c = ':'
      · simp [hc]
      · have hc' : ¬ ':' = c := fun h => hc h.symm
        rw [List.cons_append, List.takeWhile_cons, if_pos (by simpa using hc), ih (by simp)]
        simp only [List.contains_eq_mem, List.mem_cons, hc', false_or]
        split
        · rw [List.takeWhile_cons, if_pos (by simpa using hc)]
        · rfl
  unfold colonOffset
  rw [hmem, htake]
  split <;> rfl

/-- A span that reaches the end `n` of its file behind a line feed, with the spans that can stand
in it. -/
structure Last (n : Nat) (s : Span) (x : Text) : Prop where
  text_eq : s.text = x ++ ['\n']
  stop_eq : s.stop = n
  length_eq : s.stop = s.start + Text.byteLength s.text
  behind : ∀ c ∈ s.children, s.start ≤ c.start
  inside : ∀ c ∈ s.children, c.start < c.stop ∧ c.stop ≤ n
  ordered : s.children.Pairwise fun c d => c.stop ≤ d.start
  plain : ∀ c ∈ s.children, c.stop = n → c.kind ≠ .comment ∧ c.kind.isDocstring = false

namespace Last

variable {n : Nat} {s : Span} {x : Text}

theorem length (h : s.Last n x) : n = s.start + Text.byteLength x + 1 := by
  have hlen := h.length_eq
  have hnl : ('\n').utf8Size = 1 := rfl
  rw [h.stop_eq, h.text_eq, Text.byteLength_append, Text.byteLength_cons, Text.byteLength_nil,
    hnl] at hlen
  omega

theorem text_clip (h : s.Last n x) : (s.move (.clip n)).text = x := by
  rw [move_text, h.stop_eq, h.text_eq, Move.clip_text_self, List.dropLast_concat]

theorem gap?_clip (h : s.Last n x) (first : Nat) {last : Nat} (hlast : last < n) :
    (s.move (.clip n)).gap? first last = s.gap? first last := by
  have hn := h.length
  have hstart : (s.move (.clip n)).start = s.start := move_start _ _
  simp only [gap?, h.text_clip, hstart, h.text_eq, Text.slice?_of_le ['\n']
    (show last - s.start ≤ Text.byteLength x by omega)]

/-- The gap up to the end loses the line feed. -/
theorem gap?_stop (h : s.Last n x) {first : Nat} (hfirst : first < n) :
    s.gap? first n = ((s.move (.clip n)).gap? first (n - 1)).map (· ++ ['\n']) := by
  have hn := h.length
  have hstart : (s.move (.clip n)).start = s.start := move_start _ _
  simp only [gap?, h.text_clip, hstart, h.text_eq]
  by_cases hf : first < s.start
  · simp [hf]
  · have hle : ¬ n < s.start := by omega
    have hle' : ¬ n - 1 < s.start := by omega
    have hlen : n - s.start = Text.byteLength x + Text.byteLength ['\n'] := by
      have hnl : ('\n').utf8Size = 1 := rfl
      simp [hnl]
      omega
    have hlen' : n - 1 - s.start = Text.byteLength x := by omega
    simp only [hf, hle, hle', decide_false, Bool.or_self, Bool.false_eq_true, if_false, hlen,
      hlen']
    exact Text.slice?_concat ['\n'] (by omega)

theorem headerEndFrom?_clip (h : s.Last n x) (cs : List Span) (first : Nat) (hfirst : first ≤ n)
    (hle : ∀ c ∈ cs, first ≤ c.start) (hin : ∀ c ∈ cs, c.start < c.stop ∧ c.stop ≤ n)
    (hord : cs.Pairwise fun c d => c.stop ≤ d.start) :
    (s.move (.clip n)).headerEndFrom? ((Move.clip n).stop first) (cs.map (move (.clip n))) =
      s.headerEndFrom? first cs := by
  have hn := h.length
  induction cs generalizing first with
  | nil =>
    have hstop : (s.move (.clip n)).stop = n - 1 := by
      rw [move_stop, h.stop_eq, Move.clip_stop_self]
    simp only [List.map_nil, headerEndFrom?, hstop, h.stop_eq]
    by_cases he : first = n
    · have hend : ∀ t : Text, Text.slice? t (Text.byteLength t) (Text.byteLength t) = some [] :=
        fun t => Text.slice?_eq_some_iff.mpr ⟨t, [], by simp, rfl, rfl⟩
      have hgap : s.gap? n n = some [] := by
        have hlen : n - s.start = Text.byteLength s.text := by
          have := h.length_eq
          have := h.stop_eq
          omega
        simp only [gap?, hlen, hend]
        simp
        omega
      have hgap' : (s.move (.clip n)).gap? (n - 1) (n - 1) = some [] := by
        have hlen : n - 1 - s.start = Text.byteLength x := by omega
        simp only [gap?, h.text_clip, move_start, Move.clip_start, hlen, hend]
        simp
        omega
      simp [he, hgap, hgap', colonOffset]
    · rw [h.gap?_stop (by omega)]
      rw [Move.clip_stop_of_ne he]
      cases (s.move (.clip n)).gap? first (n - 1) with
      | none => rfl
      | some t => simp [colonOffset_concat]
  | cons c cs ih =>
    have hc := hin c (by simp)
    have hfc := hle c (by simp)
    have hkeep : (Move.clip n).stop first = first := Move.clip_stop_of_ne (by omega)
    have hstart : (c.move (.clip n)).start = c.start := move_start _ _
    have hrest := ih c.stop hc.2 (List.pairwise_cons.mp hord).1 (fun d hd => hin d (by simp [hd]))
      (List.pairwise_cons.mp hord).2
    simp only [List.map_cons, headerEndFrom?, hkeep, hstart, move_stop, hrest,
      h.gap?_clip first (show c.start < n by omega)]

theorem docstringFrom?_clip (h : s.Last n x) (cs : List Span) (first : Nat)
    (hin : ∀ c ∈ cs, c.start < c.stop ∧ c.stop ≤ n)
    (hplain : ∀ c ∈ cs, c.stop = n → c.kind ≠ .comment ∧ c.kind.isDocstring = false) :
    ((s.move (.clip n)).docstringFrom? first (cs.map (move (.clip n)))).map
        (Option.map Span.text) =
      (s.docstringFrom? first cs).map (Option.map Span.text) := by
  induction cs generalizing first with
  | nil => rfl
  | cons c cs ih =>
    have hc := hin c (by simp)
    have hp := hplain c (by simp)
    have hstart : (c.move (.clip n)).start = c.start := move_start _ _
    have hrest := fun first => ih first (fun d hd => hin d (by simp [hd]))
      (fun d hd => hplain d (by simp [hd]))
    simp only [List.map_cons, docstringFrom?, hstart, move_kind,
      h.gap?_clip first (show c.start < n by omega)]
    split
    · exact hrest first
    · cases s.gap? first c.start with
      | none => rfl
      | some t =>
        simp only [Option.bind_eq_bind, Option.bind_some]
        split
        · rfl
        · split
          · rename_i hcomment
            have hne : c.stop ≠ n := fun he => (hp he).1 (eq_of_beq hcomment)
            have hkeep : (c.move (.clip n)).stop = c.stop := by
              rw [move_stop, Move.clip_stop_of_ne hne]
            rw [hkeep]
            exact hrest c.stop
          · simp only [Option.pure_def, Option.map_some]
            split
            · rename_i hdoc
              have hne : c.stop ≠ n := fun he => by simp [(hp he).2] at hdoc
              simp [Move.clip_text_of_ne hne]
            · rfl

theorem docstring_clip (h : s.Last n x) :
    (s.move (.clip n)).docstring.map Span.text = s.docstring.map Span.text := by
  have hn := h.length
  have hstart : (s.move (.clip n)).start = s.start := move_start _ _
  have hkeep : (Move.clip n).stop s.start = s.start := Move.clip_stop_of_ne (by omega)
  have hhead := h.headerEndFrom?_clip s.children s.start (by omega) h.behind
    (fun c hc => h.inside c hc) h.ordered
  rw [hkeep] at hhead
  have hdoc : (s.move (.clip n)).docstring?.map (Option.map Span.text) =
      s.docstring?.map (Option.map Span.text) := by
    simp only [docstring?, move_children, hstart, hhead]
    cases s.headerEndFrom? s.start s.children with
    | none => rfl
    | some first =>
      cases first with
      | none => rfl
      | some first => exact h.docstringFrom?_clip s.children first h.inside h.plain
  have hget : ∀ d : Option (Option Span),
      (d.getD none).map Span.text = (d.map (Option.map Span.text)).getD none := by
    intro d
    cases d <;> rfl
  rw [docstring, docstring, hget, hget, hdoc]

theorem name_clip (h : s.Last n x)
    (hk : s.kind.isDefinition = true ∨ s.kind = .decorator) :
    (s.move (.clip n)).name = s.name := by
  have hheader : ∀ keyword : Text, '\n' ∉ keyword →
      headerName keyword x = headerName keyword (x ++ ['\n']) := by
    intro keyword hkw
    simp only [headerName, Text.breakAt, Text.dropPrefix_append_cons hkw]
    rw [Text.takeWhile_append_cons (by decide)]
  simp only [name, move_kind, h.text_clip, h.text_eq]
  cases hkind : s.kind with
  | classDef => exact hheader _ (by decide)
  | function | method | classMethod => exact hheader _ (by decide)
  | decorator =>
    change (Text.dropPrefix "@" x).takeWhile Text.isDotted =
      (Text.dropPrefix "@" (x ++ ['\n'])).takeWhile Text.isDotted
    rw [Text.dropPrefix_append_cons (by decide), Text.takeWhile_append_cons (by decide)]
  | _ => simp [hkind, SpanKind.isDefinition] at hk

theorem faithful (h : s.Last n x) (hk : s.kind.isDefinition = true ∨ s.kind = .decorator) :
    s.Faithful (.clip n) where
  name := h.name_clip hk
  own hb := by simp [hb, SpanKind.isDefinition] at hk
  doc := h.docstring_clip

end Last

end Span

theorem SpanKind.plain_of_isDefinition {k : SpanKind} (h : k.isDefinition = true) :
    k ≠ .comment ∧ k.isDocstring = false := by
  cases k with
  | classDef | function | method | classMethod => exact ⟨by decide, rfl⟩
  | _ => cases h

theorem scan_faithful_clip {options : ScanOptions} {w source : Text} {tree : Span}
    (hsrc : source = w ++ ['\n']) (h : scan options source = .ok tree)
    (hset : ∀ d ∈ tree.preorder, d.Settled (Text.byteLength source)) :
    ∀ d ∈ tree.descendants, d.Faithful (.clip (Text.byteLength source)) := by
  intro d hd
  have hplaced := Rule.standard_regular.scan_placed h
  have hdt : d ∈ tree.preorder := List.mem_cons_of_mem _ hd
  have hdef := scan_definitive hsrc h hset
  have hle := Opening.Placed.stop_le hplaced d hdt
  rw [(file_stop h).2.2] at hle
  by_cases hstop : d.stop = Text.byteLength source
  · obtain ⟨front, t, ht, hstart, hread⟩ := hplaced d hdt
    simp only [Nat.zero_add] at ht hstart
    obtain ⟨after, hafter⟩ := hread.text_eq
    have hafter : t = d.text ++ after := hafter
    subst hafter
    have hlen := congrArg Text.byteLength ht
    have hreads := hread.stop_eq
    simp only [Text.byteLength_append] at hlen
    obtain rfl : after = [] := Text.byteLength_eq_zero.mp (by omega)
    rw [List.append_nil] at ht hread
    have hne : d.text ≠ [] := by
      intro hnil
      obtain ⟨q, hq, hdq⟩ := Span.exists_parent hd
      obtain ⟨_, _, _, _, hparent⟩ := hplaced q hq
      have hin := hparent.inside d hdq
      simp [hnil] at hreads
      omega
    obtain ⟨x, hx, -⟩ := Text.suffix_lineFeed (hsrc.symm.trans ht) hne
    have hkind : d.kind.isDefinition = true ∨ d.kind = .decorator :=
      (hdef d hd hstop).imp_right And.left
    refine Span.Last.faithful ⟨hx, hstop, hreads, ?_, ?_, hread.ordered, ?_⟩ hkind
    · intro c hc
      exact Nat.le_trans (Nat.le_add_right _ _) (hread.inside c hc).1
    · intro c hc
      have hin := hread.inside c hc
      exact ⟨hin.2.1, by omega⟩
    · intro c hc hcs
      have hcd : c ∈ tree.descendants := by
        rw [Span.descendants_eq, Span.mem_forest]
        rcases Span.mem_preorder.mp hdt with rfl | ⟨e, he, hde⟩
        · exact ⟨c, hc, c.self_mem_preorder⟩
        · exact ⟨e, he, Span.preorder_trans (Span.child_mem_preorder hc) hde⟩
      rcases hdef c hcd hcs with hk | ⟨hk, -⟩
      · exact SpanKind.plain_of_isDefinition hk
      · simp [hk, SpanKind.isDocstring]
  · have hself : d.move (.clip (Text.byteLength source)) = d := by
      refine Span.move_eq_self _ _ fun e he => ?_
      have hed := Opening.Placed.stop_le
        (fun f hf => hplaced f (Span.preorder_trans hf hdt)) e he
      have hne : e.stop ≠ Text.byteLength source := by omega
      exact ⟨rfl, Move.clip_stop_of_ne hne, Move.clip_text_of_ne hne _⟩
    exact ⟨by rw [hself], fun _ => by rw [hself], by rw [hself]⟩

theorem scan_nil_children {options : ScanOptions} {tree : Span}
    (h : scan options [] = .ok tree) : tree.children = [] := by
  obtain ⟨consumed, h⟩ := RuleTable.scan_eq_ok_iff.mp h
  obtain ⟨opened, rest, ht, -, hreads⟩ := exists_reads_of_scanSpan h
  obtain ⟨rfl, rfl⟩ := List.append_eq_nil_iff.mp ht.symm
  cases hreads
  rfl

theorem analyze_of_scan {options : ScanOptions} {source : Text} {tree : Span}
    (h : scan options source = .ok tree) (gs : GrammarSet) (path : Text) :
    ∃ a, analyze gs options path source = .ok a ∧ a.tree = tree ∧
      a.outline.children = Outline.nestedIn gs tree.children := by
  simp only [analyze, h]
  exact ⟨_, rfl, rfl, Outline.nested_eq gs tree⟩

theorem analyze_eq_ok {gs : GrammarSet} {options : ScanOptions} {path source : Text}
    {a : Analysis} (h : analyze gs options path source = .ok a) :
    scan options source = .ok a.tree ∧
      a.outline.children = Outline.nestedIn gs a.tree.children := by
  unfold analyze at h
  split at h
  · cases h
  · rename_i tree hscan
    obtain rfl := Except.ok.inj h
    exact ⟨hscan, Outline.nested_eq gs tree⟩

/-- Analysis is local to top-level code: behind a settled file that ends with a line feed, a text
that starts a line of code is analysed as if it stood alone. The definitions of the first file keep
everything but the line feed at their end. Both may have been analysed under a deadline; the longer
file is given all the time it needs. -/
theorem analyze_append (gs : GrammarSet) (options : ScanOptions) (path path' path'' : Text)
    {s t : Text} (hs : s = [] ∨ s.getLast? = some '\n') (ht : t.StartsCode) {a b : Analysis}
    (ha : analyze gs options path s = .ok a) (hb : analyze gs options path' t = .ok b)
    (hset : ∀ d ∈ a.tree.preorder, d.Settled (Text.byteLength s)) :
    ∃ c, analyze gs options.untimed path'' (s ++ t) = .ok c ∧
      c.outline.children = a.outline.children.map (Outline.move (.clip (Text.byteLength s))) ++
        b.outline.children.map (Outline.move (.shift (Text.byteLength s))) := by
  obtain ⟨hscan, hchildren⟩ := analyze_eq_ok ha
  obtain ⟨hscan', hchildren'⟩ := analyze_eq_ok hb
  have hjoin : ∃ c, scan options.untimed (s ++ t) = .ok c ∧
      c.children = a.tree.children.map (Span.move (.clip (Text.byteLength s))) ++
        b.tree.children.map (Span.move (.shift (Text.byteLength s))) := by
    rcases hs with rfl | hs
    · refine ⟨b.tree, RuleTable.scan_untimed hscan', ?_⟩
      have hsame : Span.move (.shift 0) = id := funext fun d =>
        Span.move_eq_self _ _ fun e _ => ⟨rfl, rfl, rfl⟩
      simp [scan_nil_children hscan, hsame]
    · obtain ⟨v, rfl⟩ := List.getLast?_eq_some_iff.mp hs
      exact scan_append options.untimed_untimed rfl ht (RuleTable.scan_untimed hscan) hset
        (RuleTable.scan_untimed hscan')
  have hclip : ∀ c ∈ a.tree.children, ∀ d ∈ c.preorder,
      d.Faithful (.clip (Text.byteLength s)) := by
    intro c hc d hd
    have hdesc : d ∈ a.tree.descendants := by
      rw [Span.descendants_eq]
      exact Span.mem_forest.mpr ⟨c, hc, hd⟩
    rcases hs with rfl | hs
    · rw [scan_nil_children hscan] at hc
      cases hc
    · obtain ⟨v, rfl⟩ := List.getLast?_eq_some_iff.mp hs
      exact scan_faithful_clip rfl hscan hset d hdesc
  obtain ⟨c, hc, hcs⟩ := hjoin
  obtain ⟨r, hr, -, houtline⟩ := analyze_of_scan hc gs path''
  refine ⟨r, hr, ?_⟩
  rw [houtline, hcs, Outline.nestedIn_append, Outline.nestedIn_move gs _ hclip,
    Outline.nestedIn_move gs _ fun c _ d _ => d.faithful_shift _, hchildren, hchildren']

/-- A property at the end of a class, in front of a function. -/
theorem analyze_append_property : ∃ gs a b c,
    GrammarSet.compile .common TemplateSet.standard = .ok gs ∧
    analyze gs {} "a.py" "class A:\n  @property\n  def f(self):\n    return 1\n" = .ok a ∧
    analyze gs {} "b.py" "def g(x):\n  pass\n" = .ok b ∧
    (∃ d ∈ a.tree.preorder, d.kind = .decorator ∧ d.stop = 49) ∧
    (∀ d ∈ a.tree.preorder, d.Settled 49) ∧
    analyze gs {} "c.py"
      "class A:\n  @property\n  def f(self):\n    return 1\ndef g(x):\n  pass\n" = .ok c ∧
    c.outline.children = a.outline.children.map (Outline.move (.clip 49)) ++
      b.outline.children.map (Outline.move (.shift 49)) := by
  have htree : (scan {} "class A:\n  @property\n  def f(self):\n    return 1\n").toOption.any
      (fun tree => tree.preorder.any (fun d => d.kind == .decorator && d.stop == 49) &&
        tree.preorder.all fun d => d.Settled 49) = true := by
    decide +kernel
  have htree' : (scan {} "def g(x):\n  pass\n").toOption.any (fun _ => true) = true := by
    decide +kernel
  obtain ⟨gs, hgs⟩ : ∃ gs, GrammarSet.compile .common TemplateSet.standard = .ok gs :=
    ⟨_, GrammarSet.compile_standard _⟩
  obtain ⟨tree, htree, htest⟩ := scan_ok_of_any htree
  obtain ⟨tree', htree', -⟩ := scan_ok_of_any htree'
  simp only [Bool.and_eq_true, List.any_eq_true, List.all_eq_true, beq_iff_eq,
    decide_eq_true_eq] at htest
  obtain ⟨a, ha, rfl, -⟩ := analyze_of_scan htree gs "a.py"
  obtain ⟨b, hb, -⟩ := analyze_of_scan htree' gs "b.py"
  have hlen : Text.byteLength "class A:\n  @property\n  def f(self):\n    return 1\n" = 49 := by
    decide +kernel
  have hjoin : ("class A:\n  @property\n  def f(self):\n    return 1\n" : Text) ++
      ("def g(x):\n  pass\n" : Text) =
      "class A:\n  @property\n  def f(self):\n    return 1\ndef g(x):\n  pass\n" := by
    decide +kernel
  obtain ⟨c, hc, hchildren⟩ := analyze_append gs {} "a.py" "b.py" "c.py"
    (Or.inr (by decide +kernel))
    ⟨'d', "ef g(x):\n  pass\n", by decide +kernel, by decide, by decide, by decide⟩
    ha hb (by rw [hlen]; exact htest.2)
  rw [hlen] at hchildren
  rw [hjoin] at hc
  exact ⟨gs, a, b, c, hgs, ha, hb, htest.1, htest.2, hc, hchildren⟩

end DocCoverage
