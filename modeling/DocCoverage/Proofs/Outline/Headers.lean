import DocCoverage.Proofs.Outline.Cuts

/-!
# Where the docstring of a definition stands

The docstring is looked for in two passes over the children, each with an offset that moves along:
one for the colon that ends the header, one for the string behind it. Said without these offsets,
the header ends at the first colon outside the children, and the docstring is the child of a
docstring kind that only comments and blanks part from that colon.
-/
namespace DocCoverage

namespace Span

/-- The character stands in the span at an offset of the file. -/
def HasAt (s : Span) (n : Nat) (ch : Char) : Prop :=
  ∃ front rest, s.text = front ++ ch :: rest ∧ n = s.start + Text.byteLength front

/-- The first colon of a span from an offset on and outside the given children. -/
structure FirstColon (s : Span) (first : Nat) (children : List Span) (n : Nat) : Prop where
  from_le : first ≤ n
  colon : s.HasAt n ':'
  bare : ¬ Covered children n
  earlier : ∀ m, first ≤ m → m < n → s.HasAt m ':' → Covered children m

/-- A docstring among the given children of a span, with only comments and blanks between an offset
and it. -/
structure FirstDocstring (s : Span) (first : Nat) (children : List Span) (d : Span) : Prop where
  child : d ∈ children
  docstring : d.kind.isDocstring = true
  from_le : first ≤ d.start
  comments : ∀ c ∈ children, first ≤ c.start → c.start < d.start → c.kind = .comment
  blanks : ∀ m ch, first ≤ m → m < d.start → s.HasAt m ch → ¬ Covered children m →
    Text.isBlank ch = true

/-- The span is documented by a child: a docstring right behind the colon that ends the header. -/
def DocumentedBy (s d : Span) : Prop :=
  ∃ n, s.FirstColon s.start s.children n ∧ s.FirstDocstring (n + 1) s.children d

variable {s c d : Span} {cs : List Span} {t : Text} {first last m n : Nat}

/-! ## Gaps -/

theorem exists_of_gap? (h : s.gap? first last = some t) : ∃ front after,
    s.text = front ++ (t ++ after) ∧ first = s.start + Text.byteLength front ∧
      last = first + Text.byteLength t := by
  unfold gap? at h
  split at h
  · cases h
  · rename_i hout
    simp only [Bool.or_eq_true, decide_eq_true_eq, not_or, Nat.not_lt] at hout
    obtain ⟨front, after, htext, hfront, hlen⟩ := Text.slice?_eq_some_iff.mp h
    exact ⟨front, after, htext, by omega, by omega⟩

theorem hasAt_iff_of_gap? {ch : Char} (h : s.gap? first last = some t) (hle : first ≤ n)
    (hlt : n < last) :
    s.HasAt n ch ↔ ∃ a b, t = a ++ ch :: b ∧ n = first + Text.byteLength a := by
  obtain ⟨front, after, htext, hfirst, hlast⟩ := exists_of_gap? h
  constructor
  · intro hat
    obtain ⟨x, y, hx, rfl⟩ := hat
    obtain ⟨a, rfl, ha⟩ := Text.append_split_of_le (htext.symm.trans hx) (by omega)
    rw [Text.byteLength_append] at hlt ⊢
    obtain ⟨b, rfl, hb⟩ := Text.append_split_of_le ha.symm (by omega)
    cases b with
    | nil =>
      rw [List.append_nil] at hlast
      omega
    | cons e b =>
      obtain ⟨rfl, -⟩ := List.cons.inj hb
      exact ⟨a, b, rfl, by omega⟩
  · intro hin
    obtain ⟨a, b, rfl, rfl⟩ := hin
    exact ⟨front ++ a, b ++ after, by simp [htext], by rw [Text.byteLength_append]; omega⟩

theorem isBlankText_iff_of_gap? (h : s.gap? first last = some t) : Text.isBlankText t = true ↔
    ∀ n ch, first ≤ n → n < last → s.HasAt n ch → Text.isBlank ch = true := by
  obtain ⟨-, -, -, -, hlast⟩ := exists_of_gap? h
  rw [Text.isBlankText, List.all_eq_true]
  constructor
  · intro hall n ch hle hlt hat
    obtain ⟨a, b, rfl, -⟩ := (hasAt_iff_of_gap? h hle hlt).mp hat
    exact hall ch (by simp)
  · intro hall ch hmem
    obtain ⟨a, b, rfl⟩ := List.append_of_mem hmem
    have hsize := ch.utf8Size_pos
    rw [Text.byteLength_append, Text.byteLength_cons] at hlast
    refine hall (first + Text.byteLength a) ch (by omega) (by omega) ?_
    exact (hasAt_iff_of_gap? h (by omega) (by omega)).mpr ⟨a, b, rfl, rfl⟩

/-! ## The colon that ends the header -/

theorem covered_cons : Covered (c :: cs) n ↔ c.start ≤ n ∧ n < c.stop ∨ Covered cs n := by
  simp [Covered]

/-- In front of the first of some children nothing is covered by them. -/
theorem not_covered_of_lt (hord : (c :: cs).Pairwise fun c d => c.stop ≤ d.start)
    (hc : c.start < c.stop) (hn : n < c.start) : ¬ Covered (c :: cs) n := by
  intro hcovered
  rcases covered_cons.mp hcovered with hin | ⟨e, he, hin⟩
  · omega
  · have := List.rel_of_pairwise_cons hord he
    omega

theorem FirstColon.unique (h : s.FirstColon first cs m) (h' : s.FirstColon first cs n) : m = n := by
  rcases Nat.lt_trichotomy m n with hlt | heq | hlt
  · exact absurd (h'.earlier m h.from_le hlt h.colon) h.bare
  · exact heq
  · exact absurd (h.earlier n h'.from_le hlt h'.colon) h'.bare

theorem colonOffset_eq_none (h : colonOffset t = none) : ':' ∉ t := by
  unfold colonOffset at h
  split at h
  · cases h
  · simp_all

theorem firstColon_of_gap? (h : s.gap? first last = some t)
    (hbare : ∀ n, n < last → ¬ Covered cs n) {i : Nat} (hi : colonOffset t = some i) :
    s.FirstColon first cs (first + i) := by
  obtain ⟨-, -, -, -, hlast⟩ := exists_of_gap? h
  obtain ⟨a, b, rfl, ha, rfl⟩ := colonOffset_eq_some hi
  have hsize := (':' : Char).utf8Size_pos
  rw [Text.byteLength_append, Text.byteLength_cons] at hlast
  have hlt : first + Text.byteLength a < last := by omega
  refine ⟨by omega, ?_, hbare _ hlt, fun m hle hm hat => ?_⟩
  · exact (hasAt_iff_of_gap? h (by omega) hlt).mpr ⟨a, b, rfl, rfl⟩
  · obtain ⟨x, y, hxy, rfl⟩ := (hasAt_iff_of_gap? h hle (by omega)).mp hat
    obtain ⟨z, rfl, hz⟩ := Text.append_split_of_le hxy.symm (by omega)
    cases z with
    | nil =>
      rw [List.append_nil] at hm
      omega
    | cons e z =>
      obtain ⟨rfl, -⟩ := List.cons.inj hz
      exact absurd (by simp) ha

theorem not_hasAt_of_gap? (h : s.gap? first last = some t) (hi : colonOffset t = none)
    (hle : first ≤ n) (hlt : n < last) : ¬ s.HasAt n ':' := by
  intro hat
  obtain ⟨a, b, rfl, -⟩ := (hasAt_iff_of_gap? h hle hlt).mp hat
  exact colonOffset_eq_none hi (by simp)

/-- A gap without a colon and the child behind it are passed over. -/
theorem firstColon_cons_iff (h : s.gap? first c.start = some t) (hi : colonOffset t = none)
    (hle : first ≤ c.start) (hc : c.start < c.stop) :
    s.FirstColon first (c :: cs) n ↔ s.FirstColon c.stop cs n := by
  constructor
  · intro hcolon
    have hbare := mt covered_cons.mpr hcolon.bare
    have hstart : c.start ≤ n := by
      by_contra hlt
      exact not_hasAt_of_gap? h hi hcolon.from_le (by omega) hcolon.colon
    refine ⟨by omega, hcolon.colon, fun hin => hbare (Or.inr hin), fun m hm hlt hat => ?_⟩
    have hcovered := hcolon.earlier m (by omega) hlt hat
    exact (covered_cons.mp hcovered).resolve_left (by omega)
  · intro hcolon
    have hfrom := hcolon.from_le
    refine ⟨by omega, hcolon.colon, fun hin => ?_, fun m hm hlt hat => ?_⟩
    · exact hcolon.bare ((covered_cons.mp hin).resolve_left (by omega))
    · rw [covered_cons]
      by_cases hin : m < c.stop
      · by_cases hgap : m < c.start
        · exact absurd hat (not_hasAt_of_gap? h hi hm hgap)
        · exact Or.inl ⟨by omega, hin⟩
      · exact Or.inr (hcolon.earlier m (by omega) hlt hat)

/-- The search for the end of the header finds the place behind the first colon outside the
children, if there is one. -/
theorem headerEndFrom?_iff {found : Option Nat} (hstop : s.stop = s.start + Text.byteLength s.text)
    (hle : ∀ c ∈ cs, first ≤ c.start) (hcs : ∀ c ∈ cs, c.start < c.stop)
    (hord : cs.Pairwise fun c d => c.stop ≤ d.start)
    (h : s.headerEndFrom? first cs = some found) (k : Nat) :
    found = some k ↔ ∃ n, k = n + 1 ∧ s.FirstColon first cs n := by
  have hfound : ∀ {n}, s.FirstColon first cs n →
      (some (n + 1) = some k ↔ ∃ n, k = n + 1 ∧ s.FirstColon first cs n) := by
    intro n hn
    constructor
    · intro hk
      exact ⟨n, (Option.some.inj hk).symm, hn⟩
    · intro hk
      obtain ⟨m, rfl, hm⟩ := hk
      rw [hm.unique hn]
  induction cs generalizing first with
  | nil =>
    simp only [headerEndFrom?, Option.bind_eq_bind, Option.bind_eq_some_iff] at h
    obtain ⟨t, hgap, h⟩ := h
    obtain rfl := Option.some.inj h
    cases hi : colonOffset t with
    | some i => exact hfound (firstColon_of_gap? hgap (by simp [Covered]) hi)
    | none =>
      constructor
      · intro hk
        cases hk
      · intro hk
        obtain ⟨n, rfl, hn⟩ := hk
        obtain ⟨front, rest, htext, hat⟩ := hn.colon
        have hsize := (':' : Char).utf8Size_pos
        rw [htext, Text.byteLength_append, Text.byteLength_cons] at hstop
        exact absurd hn.colon (not_hasAt_of_gap? hgap hi hn.from_le (by omega))
  | cons c cs ih =>
    simp only [headerEndFrom?, Option.bind_eq_bind, Option.bind_eq_some_iff] at h
    obtain ⟨t, hgap, h⟩ := h
    have hc := hcs c List.mem_cons_self
    cases hi : colonOffset t with
    | some i =>
      rw [hi] at h
      obtain rfl := Option.some.inj h
      exact hfound (firstColon_of_gap? hgap (fun n hn => not_covered_of_lt hord hc hn) hi)
    | none =>
      rw [hi] at h
      have hpass : ∀ n, s.FirstColon first (c :: cs) n ↔ s.FirstColon c.stop cs n := fun n =>
        firstColon_cons_iff hgap hi (hle c List.mem_cons_self) hc
      simp only [hpass] at hfound ⊢
      exact ih (List.pairwise_cons.mp hord).1 (fun d hd => hcs d (List.mem_cons_of_mem _ hd))
        (List.pairwise_cons.mp hord).2 h hfound

/-! ## The string behind the header -/

theorem firstDocstring_skip (hc : c.start < first) (hstop : c.stop ≤ first) :
    s.FirstDocstring first (c :: cs) d ↔ s.FirstDocstring first cs d := by
  have hcovered : ∀ m, first ≤ m → (Covered (c :: cs) m ↔ Covered cs m) := by
    intro m hm
    rw [covered_cons, or_iff_right (by omega)]
  constructor
  · intro h
    have hchild : d ∈ cs := by
      rcases List.mem_cons.mp h.child with rfl | hd
      · exact absurd h.from_le (by omega)
      · exact hd
    refine ⟨hchild, h.docstring, h.from_le, fun e he => h.comments e (List.mem_cons_of_mem _ he),
      fun m ch hm hlt hat hbare => h.blanks m ch hm hlt hat ?_⟩
    rwa [hcovered m hm]
  · intro h
    refine ⟨List.mem_cons_of_mem _ h.child, h.docstring, h.from_le, fun e he hle hlt => ?_,
      fun m ch hm hlt hat hbare => h.blanks m ch hm hlt hat ?_⟩
    · rcases List.mem_cons.mp he with rfl | he
      · omega
      · exact h.comments e he hle hlt
    · rwa [← hcovered m hm]

/-- A docstring behind the offset has blanks up to the first child there, and it is this child
unless that is a comment. -/
theorem FirstDocstring.cases (h : s.FirstDocstring first (c :: cs) d)
    (hle : first ≤ c.start) (hc : c.start < c.stop)
    (hord : (c :: cs).Pairwise fun c d => c.stop ≤ d.start) :
    (∀ n ch, first ≤ n → n < c.start → s.HasAt n ch → Text.isBlank ch = true) ∧
      (d = c ∨ d ∈ cs ∧ c.kind = .comment) := by
  have hstart : c.start ≤ d.start ∧ (d = c ∨ d ∈ cs ∧ c.kind = .comment) := by
    rcases List.mem_cons.mp h.child with rfl | hd
    · exact ⟨Nat.le_refl _, Or.inl rfl⟩
    · have hbehind := List.rel_of_pairwise_cons hord hd
      exact ⟨by omega, Or.inr ⟨hd, h.comments c List.mem_cons_self hle (by omega)⟩⟩
  refine ⟨fun n ch hn hlt hat => ?_, hstart.2⟩
  exact h.blanks n ch hn (by omega) hat (not_covered_of_lt hord hc hlt)

theorem firstDocstring_comment
    (hblank : ∀ n ch, first ≤ n → n < c.start → s.HasAt n ch → Text.isBlank ch = true)
    (hle : first ≤ c.start) (hc : c.start < c.stop)
    (hord : (c :: cs).Pairwise fun c d => c.stop ≤ d.start) (hkind : c.kind = .comment) :
    s.FirstDocstring first (c :: cs) d ↔ s.FirstDocstring c.stop cs d := by
  have hbehind : ∀ e ∈ cs, c.stop ≤ e.start := fun e he => List.rel_of_pairwise_cons hord he
  constructor
  · intro h
    have hchild : d ∈ cs := by
      rcases List.mem_cons.mp h.child with rfl | hd
      · have hdocstring := h.docstring
        rw [hkind] at hdocstring
        cases hdocstring
      · exact hd
    refine ⟨hchild, h.docstring, hbehind d hchild, fun e he hge hlt => ?_,
      fun m ch hm hlt hat hbare => h.blanks m ch (by omega) hlt hat fun hin => ?_⟩
    · exact h.comments e (List.mem_cons_of_mem _ he) (by omega) hlt
    · exact hbare ((covered_cons.mp hin).resolve_left (by omega))
  · intro h
    have hfrom := h.from_le
    refine ⟨List.mem_cons_of_mem _ h.child, h.docstring, by omega, fun e he _ hlt => ?_,
      fun m ch hm hlt hat hbare => ?_⟩
    · rcases List.mem_cons.mp he with rfl | he
      · exact hkind
      · exact h.comments e he (hbehind e he) hlt
    · by_cases hgap : m < c.start
      · exact hblank m ch hm hgap hat
      · have hout := mt covered_cons.mpr hbare
        exact h.blanks m ch (by omega) hlt hat fun hin => hout (Or.inr hin)

/-- Behind blanks no other child than the first counts, if that is no comment. -/
theorem firstDocstring_head
    (hblank : ∀ n ch, first ≤ n → n < c.start → s.HasAt n ch → Text.isBlank ch = true)
    (hle : first ≤ c.start) (hc : c.start < c.stop)
    (hord : (c :: cs).Pairwise fun c d => c.stop ≤ d.start) (hkind : c.kind ≠ .comment) :
    s.FirstDocstring first (c :: cs) d ↔ c = d ∧ c.kind.isDocstring = true := by
  constructor
  · intro h
    rcases (h.cases hle hc hord).2 with rfl | ⟨-, hcomment⟩
    · exact ⟨rfl, h.docstring⟩
    · exact absurd hcomment hkind
  · intro h
    obtain ⟨rfl, hdocstring⟩ := h
    refine ⟨List.mem_cons_self, hdocstring, hle, fun e he _ hlt => ?_,
      fun m ch hm hlt hat _ => hblank m ch hm hlt hat⟩
    rcases List.mem_cons.mp he with rfl | he
    · omega
    · have := List.rel_of_pairwise_cons hord he
      omega

/-- The search behind the header finds the docstring, if there is one. -/
theorem docstringFrom?_iff {found : Option Span} (hcs : ∀ c ∈ cs, c.start < c.stop)
    (hord : cs.Pairwise fun c d => c.stop ≤ d.start)
    (hskip : ∀ c ∈ cs, c.start < first → c.stop ≤ first)
    (h : s.docstringFrom? first cs = some found) :
    found = some d ↔ s.FirstDocstring first cs d := by
  induction cs generalizing first with
  | nil =>
    obtain rfl : none = found := Option.some.inj h
    constructor
    · intro hd
      cases hd
    · intro hd
      cases hd.child
  | cons c cs ih =>
    have hc := hcs c List.mem_cons_self
    have hcs' : ∀ e ∈ cs, e.start < e.stop := fun e he => hcs e (List.mem_cons_of_mem _ he)
    obtain ⟨hbehind, hord'⟩ := List.pairwise_cons.mp hord
    rw [docstringFrom?] at h
    by_cases hlt : c.start < first
    · rw [if_pos hlt] at h
      rw [firstDocstring_skip hlt (hskip c List.mem_cons_self hlt)]
      exact ih hcs' hord' (fun e he => hskip e (List.mem_cons_of_mem _ he)) h
    · rw [if_neg hlt] at h
      have hle : first ≤ c.start := by omega
      simp only [Option.bind_eq_bind, Option.bind_eq_some_iff] at h
      obtain ⟨t, hgap, h⟩ := h
      have hblank := isBlankText_iff_of_gap? hgap
      by_cases ht : Text.isBlankText t = true
      · simp only [ht, Bool.not_true, Bool.false_eq_true, if_false] at h
        by_cases hkind : c.kind = .comment
        · rw [if_pos (by simp [hkind])] at h
          rw [firstDocstring_comment (hblank.mp ht) hle hc hord hkind]
          refine ih hcs' hord' (fun e he hlt => ?_) h
          have := hbehind e he
          omega
        · rw [if_neg (by simp [hkind])] at h
          obtain rfl := Option.some.inj h
          rw [firstDocstring_head (hblank.mp ht) hle hc hord hkind]
          by_cases hdocstring : c.kind.isDocstring = true <;> simp [hdocstring]
      · simp only [ht, Bool.not_false, if_true] at h
        obtain rfl : none = found := Option.some.inj h
        constructor
        · intro hd
          cases hd
        · intro hd
          exact absurd (hblank.mpr (hd.cases hle hc hord).1) ht

/-- In a span that its children divide, the two searches find the docstring that documents it. -/
theorem Divides.docstring_iff {source : Text} (h : s.Divides source)
    (hchildren : ∀ c ∈ s.children, c.Divides source) :
    s.docstring = some d ↔ s.DocumentedBy d := by
  have hgapped := h.gapped hchildren
  have hcs : ∀ c ∈ s.children, c.start < c.stop := fun c hc => (h.inside c hc).2.1
  have hstop : s.stop = s.start + Text.byteLength s.text := by
    obtain ⟨-, -, -, -, hlen⟩ := Text.slice?_eq_some_iff.mp h.slice
    exact hlen.symm
  have hfound := hgapped.docstring?
  simp only [Span.docstring?, Option.bind_eq_bind, Option.bind_eq_some_iff] at hfound
  obtain ⟨header, hheader, hfound⟩ := hfound
  have hcolon := headerEndFrom?_iff hstop (fun c hc => (hgapped.inside c hc).1) hcs h.ordered
    hheader
  cases header with
  | none =>
    obtain hnone : none = s.docstring := Option.some.inj hfound
    rw [← hnone]
    constructor
    · intro hd
      cases hd
    · intro hd
      obtain ⟨n, hn, -⟩ := hd
      cases (hcolon (n + 1)).mpr ⟨n, rfl, hn⟩
  | some first =>
    obtain ⟨n, rfl, hn⟩ := (hcolon first).mp rfl
    have hskip : ∀ c ∈ s.children, c.start < n + 1 → c.stop ≤ n + 1 := by
      intro c hc hlt
      by_contra hin
      exact hn.bare ⟨c, hc, by omega, by omega⟩
    rw [docstringFrom?_iff hcs h.ordered hskip hfound]
    constructor
    · intro hd
      exact ⟨n, hn, hd⟩
    · intro hd
      obtain ⟨m, hm, hd⟩ := hd
      rwa [hm.unique hn] at hd

end Span

section

variable {options : ScanOptions} {source : Text} {tree s : Span}

/-- In a scanned tree the docstring of a span can always be looked for. It is found if and only if
some child documents the span, and then it is that child. -/
theorem scan_docstring_iff (h : scan options source = .ok tree) (hs : s ∈ tree.preorder) :
    s.docstring? = some s.docstring ∧ (∀ d, s.docstring = some d ↔ s.DocumentedBy d) ∧
      (s.docstring = none ↔ ∀ d ∈ s.children, ¬ s.DocumentedBy d) := by
  have hself := divides_of_mem_preorder h hs
  have hchildren : ∀ c ∈ s.children, c.Divides source := fun c hc =>
    divides_of_mem_preorder h (Span.preorder_trans (Span.child_mem_preorder hc) hs)
  have hiff : ∀ d, s.docstring = some d ↔ s.DocumentedBy d := fun d =>
    hself.docstring_iff hchildren
  refine ⟨(hself.gapped hchildren).docstring?, hiff, ?_⟩
  rw [Option.eq_none_iff_forall_ne_some]
  constructor
  · intro hnone d _ hd
    exact hnone d ((hiff d).mpr hd)
  · intro hnone d hd
    have hdocumented := (hiff d).mp hd
    obtain ⟨n, -, hdocstring⟩ := hdocumented
    exact hnone d hdocstring.child ((hiff d).mp hd)

/-- Colons in the brackets and in a comment in front of a docstring. -/
def annotatedSource : Text := "def f(a: str = \"x:y\"):  # see: g\n    # two\n    '''Doc.'''\n"

/-- These colons are passed over. -/
theorem scan_docstring_iff_annotated : ∃ tree s d, scan {} annotatedSource = .ok tree ∧
    s ∈ tree.preorder ∧ s.kind = .function ∧ s.docstring? = some (some d) ∧
      d.text = ("'''Doc.'''" : Text) ∧ s.DocumentedBy d := by
  have htest : (scan {} annotatedSource).toOption.any (fun tree => tree.preorder.any fun s =>
      s.kind == .function && s.docstring.any fun d => d.text == ("'''Doc.'''" : Text)) = true := by
    decide +kernel
  obtain ⟨tree, hscan, htest⟩ := scan_ok_of_any htest
  obtain ⟨s, hs, htest⟩ := List.any_eq_true.mp htest
  simp only [Bool.and_eq_true, beq_iff_eq, Option.any_eq_true] at htest
  obtain ⟨hkind, d, hd, htext⟩ := htest
  obtain ⟨hchecked, hiff, -⟩ := scan_docstring_iff hscan hs
  exact ⟨tree, s, d, hscan, hs, hkind, by rw [hchecked, hd], htext, (hiff d).mp hd⟩

end

end DocCoverage
