import DocCoverage.Proofs.Scan.Openers
import DocCoverage.Proofs.Scan.Partition

/-!
# What stands in what

In a scanned tree every child is of a kind that the rule of its parent allows, with one exception:
the definition below `@classmethod` is a classmethod, which no rule allows. A decorator has one of
two names, ends with the definition below it, if there is one, and has no other. Statements stand
directly in callables.
-/
namespace DocCoverage

def SpanKind.isStatement : SpanKind → Bool
  | .returnStmt | .raiseStmt | .yieldStmt => true
  | _ => false

/-! ## Places of the source where a child opens -/

section

variable {options : ScanOptions} {source : Text} {tree q c : Span}

/-- The place of the source where a child opens, in the text of its parent. -/
structure Span.OpensIn (source : Text) (q c : Span) (back t : Text) (k : SpanKind) : Prop where
  source_eq : ∃ front, source = front ++ (back.reverse ++ t) ∧ q.start = Text.byteLength front
  start_eq : c.start = q.start + Text.byteLength back
  parent : (q.opening (back.reverse ++ t)).Reading Rule.standard q
  child : (c.opening t).Reading Rule.standard c
  dispatch : RuleTable.dispatch Rule.standard (Rule.standard q.kind) ⟨back, t⟩ = some k
  kind_eq : q.kind.refine (back.reverse ++ t) k = c.kind

theorem scan_opensIn (h : scan options source = .ok tree) (hq : q ∈ tree.preorder)
    (hc : c ∈ q.children) : ∃ back t k, q.OpensIn source c back t k := by
  have hplaced := Rule.standard_regular.scan_placed h
  obtain ⟨front, tq, htq, hstart, hparent⟩ := hplaced q hq
  obtain ⟨front', t, ht, hstart', hchild⟩ :=
    hplaced c (Span.preorder_trans (Span.child_mem_preorder hc) hq)
  simp only [Nat.zero_add] at htq hstart ht hstart'
  have hin := hparent.inside c hc
  obtain ⟨⟨back, ahead⟩, k, hplace, hdispatch, hkind⟩ := hparent.opened c hc
  obtain ⟨hcut, hlen⟩ := Cursor.at?_eq_some_iff.mp hplace
  simp only [Span.opening] at hin hcut hlen hdispatch hkind
  -- both divisions of the source are at the start of the child
  have hsplit : (front ++ back.reverse) ++ ahead = front' ++ t := by
    rw [List.append_assoc, ← hcut, ← htq, ht]
  obtain ⟨-, rfl⟩ := Text.append_inj_of_byteLength hsplit (by simp; omega)
  subst hcut
  exact ⟨back, ahead, k, ⟨front, htq, hstart⟩, by omega, hparent, hchild, hdispatch, hkind⟩

/-- A child that is no classmethod opens as what it is. -/
theorem Span.OpensIn.kind_of_ne {back t : Text} {k : SpanKind} (h : q.OpensIn source c back t k)
    (hkind : c.kind ≠ .classMethod) : k = c.kind := by
  rcases SpanKind.refine_eq_or q.kind k (back.reverse ++ t) with hrefine | ⟨-, hrefine⟩
  · rw [← hrefine, h.kind_eq]
  · exact absurd (h.kind_eq.symm.trans hrefine) hkind

end

/-! ## The names of decorators -/

namespace Rule

theorem markEnds_head {t : Text} (h : markEnds t = true) :
    t = [] ∨ ∃ c rest, t = c :: rest ∧ (c = ' ' ∨ c = '#' ∨ c = '\n') := by
  cases t with
  | nil => exact Or.inl rfl
  | cons c rest =>
    refine Or.inr ⟨c, rest, rfl, ?_⟩
    by_cases hc : c = ' '
    · exact Or.inl hc
    · simpa [markEnds, skipSpaces, hc] using h

/-- The two decorators that mark a definition. -/
theorem marker_cases {t : Text} (h : marker t = true) :
    ∃ w rest, (w = ("property" : Text) ∨ w = ("classmethod" : Text)) ∧ t = w ++ rest ∧
      markEnds rest = true := by
  unfold marker at h
  split at h
  · rename_i rest hrest
    exact ⟨_, rest, Or.inl rfl, Text.dropPrefix?_eq_some_iff.mp hrest, h⟩
  · split at h
    · rename_i rest hrest
      exact ⟨_, rest, Or.inr rfl, Text.dropPrefix?_eq_some_iff.mp hrest, h⟩
    · cases h

end Rule

/-- A place in front of a line feed or behind a blank lies behind a word at the front. -/
theorem Text.byteLength_le_back {w rest back ahead : Text} (h : w ++ rest = back.reverse ++ ahead)
    (hw : ∀ c ∈ w, c ≠ '\n' ∧ c ≠ ' ')
    (hplace : (∃ t, ahead = '\n' :: t) ∨ ∃ c t, back = c :: t ∧ (c = '\n' ∨ c = ' ')) :
    Text.byteLength w ≤ Text.byteLength back := by
  by_contra hlt
  obtain ⟨m, hm, hahead⟩ := Text.append_split_of_le h.symm (by simp; omega)
  have hmem : ∀ c ∈ w, c ≠ '\n' ∧ c ≠ ' ' := hw
  rcases hplace with ⟨t, rfl⟩ | ⟨c, t, rfl, hc⟩
  · cases m with
    | nil =>
      have hlen := congrArg Text.byteLength hm
      simp at hlen
      omega
    | cons d m =>
      obtain ⟨rfl, -⟩ := List.cons.inj hahead
      exact (hmem '\n' (by simp [hm])).1 rfl
  · obtain ⟨hfeed, hspace⟩ := hmem c (by simp [hm])
    rcases hc with rfl | rfl
    · exact hfeed rfl
    · exact hspace rfl

namespace Opening

variable {o : Opening} {c s : Span} {t w rest : Text}

theorem Opens.method (h : o.Opens Rule.standard c) (hkind : o.kind = .decorator)
    (hdefinition : c.kind.isDefinition = true) :
    ∃ cur, Cursor.at? o.text (c.start - o.start) = some cur ∧
      (Rule.standard .method).opens cur = true ∧ o.kind.refine o.text .method = c.kind := by
  obtain ⟨cur, k, hplace, hdispatch, hrefine⟩ := h
  obtain ⟨hlegal, hopens⟩ := RuleTable.dispatch_eq_some hdispatch
  have hmethod : k = .method := by
    rcases SpanKind.refine_eq_or o.kind k o.text with hk | ⟨hk, -⟩
    · rw [hk] at hrefine
      rw [← hrefine] at hdefinition
      rw [hkind] at hlegal
      revert hlegal hdefinition
      cases k <;> decide
    · exact hk
  subst hmethod
  exact ⟨cur, hplace, hopens, hrefine⟩

/-- A decorator ends behind the word that marks it. -/
theorem Reading.marker_le (h : (s.opening t).Reading Rule.standard s) (hkind : s.kind = .decorator)
    (ht : t = w ++ rest) (hw : ∀ c ∈ w, c ≠ '\n' ∧ c ≠ ' ') :
    Text.byteLength w ≤ Text.byteLength s.text := by
  have hstop := h.stop_eq
  cases h.ending with
  | closed e cur place behind bare idle fires stop_eq =>
    obtain ⟨hcut, hlen⟩ := Cursor.at?_eq_some_iff.mp place
    simp only [Span.opening, hkind] at hcut fires stop_eq
    have hback := Text.byteLength_le_back (ht.symm.trans hcut) hw
      (Or.inl (dedents_lineFeed fires))
    have htrail : (Rule.standard .decorator).trailing = 0 := rfl
    omega
  | ranOut stop_eq =>
    simp only [Span.opening, ht, Text.byteLength_append] at stop_eq
    omega
  | decorated kind last isLast definition stop_eq =>
    have hmem := List.mem_of_getLast? isLast
    have hin := h.inside last hmem
    have hwidth : (s.opening t).width Rule.standard = 1 := by
      simp only [width, Span.opening, hkind]
      rfl
    rw [hwidth] at hin
    obtain ⟨⟨back, ahead⟩, place, hopens, -⟩ := (h.opened last hmem).method kind definition
    obtain ⟨hcut, hlen⟩ := Cursor.at?_eq_some_iff.mp place
    simp only [Span.opening] at hcut hlen hin
    have hback : ∃ c u, back = c :: u ∧ (c = '\n' ∨ c = ' ') := by
      cases back with
      | nil =>
        simp only [Text.byteLength_nil] at hlen
        omega
      | cons c u =>
        refine ⟨c, u, rfl, ?_⟩
        cases ahead with
        | nil => cases hopens
        | cons d ahead =>
          simp only [Rule.opens, Bool.and_eq_true] at hopens
          have hbefore : Rule.lineStart c = true := hopens.1.1.2
          simpa [Rule.lineStart] using hbefore
    have hle := Text.byteLength_le_back (ht.symm.trans hcut) hw (Or.inr hback)
    omega

/-- The name of a decorator is the word that marks it, which also tells how a method below it is
read. -/
theorem Reading.decorator_name (h : (s.opening t).Reading Rule.standard s)
    (hkind : s.kind = .decorator) {back : Text}
    (hopens : (Rule.standard .decorator).opens ⟨back, t⟩ = true) :
    s.name = ("property" : Text) ∧ SpanKind.refine .decorator t .method = .method ∨
      s.name = ("classmethod" : Text) ∧ SpanKind.refine .decorator t .method = .classMethod := by
  cases t with
  | nil => cases hopens
  | cons c t =>
    simp only [Rule.opens, Bool.and_eq_true] at hopens
    obtain rfl : c = '@' := eq_of_beq hopens.1.1.1
    obtain ⟨w, rest, hw, rfl, hends⟩ := Rule.marker_cases hopens.1.2
    have hplain : ∀ c ∈ '@' :: w, c ≠ '\n' ∧ c ≠ ' ' := by
      rcases hw with rfl | rfl <;> simp
    obtain ⟨after, hafter⟩ := h.text_eq
    obtain ⟨m, hm, rfl⟩ := Text.append_split_of_le (a := '@' :: w) (b := rest) hafter
      (h.marker_le hkind (w := '@' :: w) rfl hplain)
    have hname : s.name = w := by
      have hdotted : ∀ c ∈ w, Text.isDotted c = true := by
        rcases hw with rfl | rfl <;> exact List.all_eq_true.mp rfl
      have hstops : m.takeWhile Text.isDotted = [] := by
        rcases Rule.markEnds_head hends with hnil | ⟨c, u, hcons, hc⟩
        · simp [(List.append_eq_nil_iff.mp hnil).1]
        · cases m with
          | nil => rfl
          | cons d m =>
            obtain ⟨rfl, -⟩ := List.cons.inj hcons
            rcases hc with rfl | rfl | rfl <;> rfl
      rw [Span.name, hkind, hm]
      show (w ++ m).takeWhile Text.isDotted = w
      rw [List.takeWhile_append_of_pos hdotted, hstops, List.append_nil]
    rcases hw with rfl | rfl
    · exact Or.inl ⟨hname, rfl⟩
    · exact Or.inr ⟨hname, rfl⟩

end Opening

/-! ## The last child of a decorator -/

/-- What holds of all spans that were scanned inside holds of the children of a run. -/
theorem Reads.forall_children {table : RuleTable} {child : Opening → Scanned → Prop} {o : Opening}
    {p : Progress} {t : Text} {r : Scanned} {P : Span → Prop} (h : Reads table child o p t r)
    (hchild : ∀ q s, child q s → P s.span) (hp : ∀ c ∈ p.children, P c) :
    ∀ c ∈ r.span.children, P c := by
  induction h with
  | atEnd p => simpa [Opening.close] using hp
  | inChild _ _ ih => exact ih hp
  | takesUp _ _ scanned _ _ ih =>
    refine ih fun c hc => ?_
    rcases List.mem_cons.mp hc with rfl | hc
    · exact hchild _ _ scanned
    · exact hp c hc
  | isSealed _ _ scanned =>
    intro c hc
    rcases List.mem_cons.mp (List.mem_reverse.mp hc) with rfl | hc
    · exact hchild _ _ scanned
    · exact hp c hc
  | closes => simpa [Opening.close] using hp
  | steps _ _ _ _ ih => exact ih hp

theorem RuleTable.scan_forall {table : RuleTable} {options : ScanOptions} {source : Text}
    {tree : Span} {P : Span → Prop}
    (hread : ∀ (child : Opening → Scanned → Prop) (o : Opening) (opened rest : Text) (r : Scanned),
      Reads table child o (o.begin opened) rest r → P r.span)
    (h : table.scan options source = .ok tree) : ∀ s ∈ tree.preorder, P s := by
  obtain ⟨consumed, h⟩ := RuleTable.scan_eq_ok_iff.mp h
  refine scanSpan_induction (motive := fun _ r => ∀ s ∈ r.span.preorder, P s)
    (fun o opened rest r _ _ hreads => ?_) h
  intro s hs
  rcases Span.mem_preorder.mp hs with rfl | ⟨c, hc, hs⟩
  · exact hread _ o opened rest r hreads
  · exact hreads.forall_children (P := fun c => ∀ s ∈ c.preorder, P s) (fun _ _ hs => hs)
      (by simp [Opening.begin]) c hc s hs

/-- A span that is sealed with a definition takes up nothing behind it. -/
theorem Reads.unsealed {table : RuleTable} {child : Opening → Scanned → Prop} {o : Opening}
    {p : Progress} {t : Text} {r : Scanned} (h : Reads table child o p t r)
    (hp : ∀ c ∈ p.children, o.sealedBy table c = false) :
    ∀ c ∈ r.span.children.dropLast, o.sealedBy table c = false := by
  induction h with
  | atEnd p =>
    exact fun c hc => hp c (List.mem_reverse.mp (List.dropLast_subset _ hc))
  | inChild _ _ ih => exact ih hp
  | takesUp _ _ _ goesOn _ ih =>
    refine ih fun c hc => ?_
    rcases List.mem_cons.mp hc with rfl | hc
    · exact goesOn
    · exact hp c hc
  | isSealed =>
    intro c hc
    simp only [Opening.close, List.reverse_cons, List.dropLast_concat] at hc
    exact hp c (List.mem_reverse.mp hc)
  | closes =>
    exact fun c hc => hp c (List.mem_reverse.mp (List.dropLast_subset _ hc))
  | steps _ _ _ _ ih => exact ih hp

/-- Only the last child of a decorator can be a definition. -/
theorem scan_decorator_last {options : ScanOptions} {source : Text} {tree s : Span}
    (h : scan options source = .ok tree) (hs : s ∈ tree.preorder) (hkind : s.kind = .decorator) :
    ∀ c ∈ s.children.dropLast, c.kind.isDefinition = false := by
  have hall := RuleTable.scan_forall (P := fun s => s.kind = .decorator →
    ∀ c ∈ s.children.dropLast, c.kind.isDefinition = false) ?_ h
  · exact hall s hs hkind
  · intro child o opened rest r hreads hkind c hc
    have hsealed := hreads.unsealed (by simp [Opening.begin]) c hc
    have ho : o.kind = .decorator := by
      rw [← hkind, hreads.span_eq]
      rfl
    simpa [Opening.sealedBy, ho, Rule.standard, Rule.decorator, End.isDecorated] using hsealed

/-! ## Legal children -/

/-- The children of a span are of kinds that belong there. -/
structure Span.Legal (s : Span) : Prop where
  allowed : ∀ c ∈ s.children, c.kind ≠ .classMethod → c.kind ∈ (Rule.standard s.kind).children
  classMethod : ∀ c ∈ s.children, c.kind = .classMethod ↔
    s.kind = .decorator ∧ s.name = ("classmethod" : Text) ∧ c.kind.isDefinition = true
  property : s.kind = .decorator → s.name ≠ ("classmethod" : Text) → ∀ c ∈ s.children,
    c.kind.isDefinition = true → c.kind = .method ∧ s.name = ("property" : Text)
  last : s.kind = .decorator → ∀ c ∈ s.children.dropLast, c.kind.isDefinition = false
  statement : ∀ c ∈ s.children, c.kind.isStatement = true → s.kind.isCallable = true

theorem Rule.classMethod_notMem (k : SpanKind) : .classMethod ∉ (standard k).children := by
  cases k <;> decide

theorem Rule.isCallable_of_statement {k parent : SpanKind}
    (h : k ∈ (standard parent).children) (hk : k.isStatement = true) :
    parent.isCallable = true := by
  revert h
  cases k <;> cases hk
  all_goals cases parent <;> decide

section

variable {options : ScanOptions} {source : Text} {tree s c : Span}

/-- A decorator of a scanned tree is named by the word that marks it. -/
theorem scan_decorator_name (h : scan options source = .ok tree) (hs : s ∈ tree.preorder)
    (hkind : s.kind = .decorator) : ∃ front t, source = front ++ t ∧
      s.start = Text.byteLength front ∧
      (s.name = ("property" : Text) ∧ SpanKind.refine .decorator t .method = .method ∨
        s.name = ("classmethod" : Text) ∧
          SpanKind.refine .decorator t .method = .classMethod) := by
  have hroot := (file_stop h).1
  rcases List.mem_cons.mp hs with rfl | hs
  · rw [hkind] at hroot
    cases hroot
  · obtain ⟨q, hq, hmem⟩ := Span.exists_parent hs
    obtain ⟨back, t, k, hopens⟩ := scan_opensIn h hq hmem
    obtain rfl : k = .decorator := (hopens.kind_of_ne (by simp [hkind])).trans hkind
    obtain ⟨front, hsource, hstart⟩ := hopens.source_eq
    refine ⟨front ++ back.reverse, t, by rw [hsource, List.append_assoc], ?_,
      hopens.child.decorator_name hkind (RuleTable.dispatch_eq_some hopens.dispatch).2⟩
    rw [hopens.start_eq, hstart, Text.byteLength_append, Text.byteLength_reverse]

/-- The definition below a decorator is read as the name of the decorator says. -/
theorem scan_decorator_definition (h : scan options source = .ok tree) (hs : s ∈ tree.preorder)
    (hkind : s.kind = .decorator) (hc : c ∈ s.children) (hdefinition : c.kind.isDefinition = true) :
    s.name = ("property" : Text) ∧ c.kind = .method ∨
      s.name = ("classmethod" : Text) ∧ c.kind = .classMethod := by
  obtain ⟨front, t, hsource, hstart, hname⟩ := scan_decorator_name h hs hkind
  obtain ⟨front', t', hsource', hstart', hread⟩ := Rule.standard_regular.scan_placed h s hs
  obtain ⟨-, rfl⟩ := Text.append_inj_of_byteLength (hsource.symm.trans hsource')
    (by simp only [Nat.zero_add] at hstart'; omega)
  obtain ⟨-, -, -, hrefine⟩ := (hread.opened c hc).method hkind hdefinition
  simp only [Span.opening, hkind] at hrefine
  rwa [hrefine] at hname

/-- Every span of a scanned tree has legal children. -/
theorem scan_legal (h : scan options source = .ok tree) (hs : s ∈ tree.preorder) : s.Legal := by
  -- a kind that is not refined is one of those the parent's rule allows
  have hplain : ∀ c ∈ s.children, c.kind = .classMethod ∧ s.kind = .decorator ∨
      c.kind ∈ (Rule.standard s.kind).children := by
    intro c hc
    obtain ⟨back, t, k, hopens⟩ := scan_opensIn h hs hc
    have hlegal := (RuleTable.dispatch_eq_some hopens.dispatch).1
    have hrefine := hopens.kind_eq
    by_cases hkind : s.kind = .decorator
    · rcases SpanKind.refine_eq_or s.kind k (back.reverse ++ t) with hk | ⟨-, hk⟩
      · rw [hk] at hrefine
        exact Or.inr (hrefine ▸ hlegal)
      · exact Or.inl ⟨hrefine.symm.trans hk, hkind⟩
    · rw [SpanKind.refine_of_ne hkind] at hrefine
      exact Or.inr (hrefine ▸ hlegal)
  have hnames := fun hkind c hc => scan_decorator_definition (c := c) h hs hkind hc
  constructor
  · exact fun c hc hne => (hplain c hc).resolve_left fun hk => hne hk.1
  · refine fun c hc => ⟨fun hk => ?_, fun ⟨hkind, hname, hdefinition⟩ => ?_⟩
    · have hkind : s.kind = .decorator :=
        ((hplain c hc).resolve_right (hk ▸ Rule.classMethod_notMem s.kind)).2
      have hdefinition : c.kind.isDefinition = true := by rw [hk]; rfl
      refine ⟨hkind, ?_, hdefinition⟩
      rcases hnames hkind c hc hdefinition with ⟨-, hmethod⟩ | ⟨hname, -⟩
      · rw [hk] at hmethod
        cases hmethod
      · exact hname
    · rcases hnames hkind c hc hdefinition with ⟨hproperty, -⟩ | ⟨-, hk⟩
      · rw [hname] at hproperty
        exact absurd hproperty (by decide)
      · exact hk
  · intro hkind hname c hc hdefinition
    rcases hnames hkind c hc hdefinition with ⟨hproperty, hk⟩ | ⟨hclass, -⟩
    · exact ⟨hk, hproperty⟩
    · exact absurd hclass hname
  · exact scan_decorator_last h hs
  · intro c hc hstatement
    rcases hplain c hc with ⟨hk, -⟩ | hallowed
    · rw [hk] at hstatement
      cases hstatement
    · exact Rule.isCallable_of_statement hallowed hstatement

end

end DocCoverage
