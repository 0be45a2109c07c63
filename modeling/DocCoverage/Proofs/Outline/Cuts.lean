import DocCoverage.Analysis
import DocCoverage.Proofs.Scan.Depth
import DocCoverage.Proofs.Scan.Offsets
import DocCoverage.Proofs.Scan.Partition
import Mathlib.Data.List.TakeWhile

/-!
# The cuts of an outline

An outline cuts texts out of the spans of a tree: the own text of parameter lists, the gaps in
which the colon and the docstring of a definition are looked for, and parameters in front of their
defaults. Here all of this is built with checked cuts. In a scanned tree every offset is a cut of
the text it is used on and the offsets of a cut are in order, so the checked outline always has an
answer, whatever the grammar, and it is the outline.
-/
namespace DocCoverage

namespace Text

/-- The number of bytes in front of the first character outside a class. -/
def leadingOffset (accept : Char → Bool) : Text → Nat
  | [] => 0
  | c :: t => if accept c then c.utf8Size + leadingOffset accept t else 0

/-- The characters of a class at the front of a text, cut off at a byte offset. -/
def leadingWord? (accept : Char → Bool) (t : Text) : Option Text :=
  slice? t 0 (leadingOffset accept t)

theorem leadingOffset_eq (accept : Char → Bool) (t : Text) :
    leadingOffset accept t = byteLength (t.takeWhile accept) := by
  induction t with
  | nil => rfl
  | cons c t ih =>
    rw [leadingOffset, List.takeWhile_cons]
    by_cases hc : accept c = true
    · rw [if_pos hc, if_pos hc, byteLength_cons, ih]
    · rw [if_neg hc, if_neg hc]
      rfl

theorem leadingWord?_eq (accept : Char → Bool) (t : Text) :
    leadingWord? accept t = some (t.takeWhile accept) := by
  rw [leadingWord?, leadingOffset_eq]
  refine slice?_eq_some_iff.mpr ⟨[], t.dropWhile accept, ?_, rfl, Nat.zero_add _⟩
  exact List.takeWhile_append_dropWhile.symm

end Text

namespace Span

/-- The name of a span, checked. -/
def name? (s : Span) : Option Text :=
  match s.kind with
  | .decorator | .decoratorArgument =>
    Text.leadingWord? Text.isDotted (Text.dropPrefix "@" s.text)
  | .selfAttribute => Text.leadingWord? Text.isIdentifier ((s.text.dropWhile (· != '.')).drop 1)
  | .raiseStmt => Text.leadingWord? Text.isDotted (Text.trimStart (Text.dropPrefix "raise" s.text))
  | kind => some (nameOf kind s.text)

theorem name?_eq (s : Span) : s.name? = some s.name := by
  rw [name?, name]
  cases s.kind <;> first | exact Text.leadingWord?_eq _ _ | rfl

end Span

namespace Signature

/-- The number of bytes in front of the first equals sign that does not follow a backslash. -/
def defaultOffset (prev : Char) : Text → Option Nat
  | [] => none
  | c :: t =>
    if c == '=' && prev != '\\' then some 0 else (defaultOffset c t).map (c.utf8Size + ·)

/-- A parameter without its default, cut off at a byte offset. -/
def beforeDefault? (item : Text) : Option Text :=
  Text.slice? item 0 ((defaultOffset ' ' item).getD (Text.byteLength item))

def parameterName? (item : Text) : Option (Option Text) := do
  let front ← beforeDefault? (Text.trim item)
  let name := Text.trim (front.takeWhile (· != ':'))
  return if name.isEmpty || name.contains '*' || name == "/" then none else some name

def parameters? (s : Span) : Option (List Text) :=
  match s.children.find? (·.kind == .bracket) with
  | none => some []
  | some list => do
    let own ← list.ownText?
    let names ← (parameterItems own).mapM parameterName?
    return (names.filterMap id).filter fun name => some name != receiver s.kind

def ofSpan? (s : Span) : Option Signature :=
  if s.kind == .classDef then some { attributes := attributesOf s }
  else if s.kind.isCallable then do
    return { inputs := ← parameters? s
             returns := countOf s .returnStmt
             yields := countOf s .yieldStmt
             raises := raisedNames s }
  else some {}

end Signature

def Findings.ofSpan? (gs : GrammarSet) (sig : Signature) (s : Span) : Option Findings :=
  match gs.forKind s.kind with
  | none => some {}
  | some g => do
    match ← s.docstring? with
    | none => return {}
    | some doc => return ofDocstring g s.kind sig doc.text

namespace Outline

/-- The node of a span above the nodes of its nested definitions, checked. -/
def node? (gs : GrammarSet) (name : Text) (s : Span) (children : List Outline) :
    Option Outline := do
  let tainted := isTainted s
  let signature ← Signature.ofSpan? s
  let findings ← if tainted then some {} else Findings.ofSpan? gs signature s
  return { kind := s.kind
           name := name
           start := s.start
           stop := s.stop
           signature := signature
           findings := findings
           coverage := Coverage.ofSpan s findings (children.map (·.coverage))
           tainted := tainted
           children := children }

mutual

/-- The nodes of the closest definitions inside a span, checked. -/
def nested? (gs : GrammarSet) : Span → Option (List Outline)
  | ⟨_, _, _, _, _, _, children⟩ => nestedIn? gs children

def nestedIn? (gs : GrammarSet) : List Span → Option (List Outline)
  | [] => some []
  | c :: rest => do
    let inner ← nested? gs c
    let here ← if c.kind.isDefinition then (node? gs c.name c inner).map ([·]) else some inner
    return here ++ (← nestedIn? gs rest)

end

def ofSpan? (gs : GrammarSet) (name : Text) (s : Span) : Option Outline := do
  node? gs name s (← nested? gs s)

end Outline

namespace Signature

theorem defaultOffset_cut (prev : Char) (t : Text) : ∃ rest,
    t = beforeDefault prev t ++ rest ∧
      (defaultOffset prev t).getD (Text.byteLength t) = Text.byteLength (beforeDefault prev t) := by
  induction t generalizing prev with
  | nil => exact ⟨[], rfl, rfl⟩
  | cons c t ih =>
    rw [beforeDefault, defaultOffset]
    by_cases hc : (c == '=' && prev != '\\') = true
    · exact ⟨c :: t, by rw [if_pos hc, List.nil_append], by rw [if_pos hc, if_pos hc]; rfl⟩
    · obtain ⟨rest, ht, hlen⟩ := ih c
      rw [if_neg hc, if_neg hc]
      refine ⟨rest, by rw [List.cons_append, ← ht], ?_⟩
      rw [Text.byteLength_cons, Text.byteLength_cons, ← hlen]
      cases defaultOffset c t <;> rfl

theorem beforeDefault?_eq (item : Text) : beforeDefault? item = some (beforeDefault ' ' item) := by
  obtain ⟨rest, ht, hlen⟩ := defaultOffset_cut ' ' item
  rw [beforeDefault?, hlen]
  exact Text.slice?_eq_some_iff.mpr ⟨[], rest, by simpa using ht, rfl, by simp⟩

theorem parameterName?_eq (item : Text) : parameterName? item = some (parameterName item) := by
  rw [parameterName?, beforeDefault?_eq]
  rfl

end Signature

namespace Span

/-- The offset of the file is a cut of the text of the span. -/
def IsCut (s : Span) (n : Nat) : Prop :=
  ∃ front t, s.text = front ++ t ∧ n = s.start + Text.byteLength front

variable {s : Span}

theorem isCut_start : s.IsCut s.start := ⟨[], s.text, rfl, rfl⟩

/-- Between two cuts in order there is a text, and a cut of that text is a cut of the span. -/
theorem IsCut.gap? {first last : Nat} (hf : s.IsCut first) (hl : s.IsCut last)
    (hle : first ≤ last) : ∃ t, s.gap? first last = some t ∧
      ∀ a b, t = a ++ b → s.IsCut (first + Text.byteLength a) := by
  obtain ⟨front, rest, hfront, hf⟩ := hf
  obtain ⟨front', rest', hfront', hl⟩ := hl
  obtain ⟨t, rfl, rfl⟩ := Text.append_split_of_le (hfront.symm.trans hfront') (by omega)
  rw [Text.byteLength_append] at hl
  refine ⟨t, gap?_eq_some hfront hf (by omega), ?_⟩
  rintro a b rfl
  exact ⟨front ++ a, b ++ rest', by simp [hfront], by rw [Text.byteLength_append]; omega⟩

theorem colonOffset_eq_some {t : Text} {i : Nat} (h : colonOffset t = some i) :
    ∃ a b, t = a ++ ':' :: b ∧ ':' ∉ a ∧ Text.byteLength a = i := by
  unfold colonOffset at h
  split at h
  · rename_i hmem
    rw [List.contains_iff_mem] at hmem
    have hsplit : t.takeWhile (· != ':') ++ t.dropWhile (· != ':') = t :=
      List.takeWhile_append_dropWhile
    have hfront : ':' ∉ t.takeWhile (· != ':') := fun hin => by
      simpa using List.all_eq_true.mp List.all_takeWhile ':' hin
    cases hrest : t.dropWhile (· != ':') with
    | nil => simpa using List.dropWhile_eq_nil_iff.mp hrest ':' hmem
    | cons c b =>
      have hc : c = ':' := by
        have hhead := List.head?_dropWhile_not (· != ':') t
        rw [hrest] at hhead
        simpa using hhead
      subst hc
      rw [hrest] at hsplit
      exact ⟨_, b, hsplit.symm, hfront, Option.some.inj h⟩
  · cases h

/-- Every child starts and ends at a cut of the span, and they stand in order. -/
structure Gapped (s : Span) : Prop where
  stop : s.IsCut s.stop
  cuts : ∀ c ∈ s.children, s.IsCut c.start ∧ s.IsCut c.stop
  inside : ∀ c ∈ s.children, s.start ≤ c.start ∧ c.start ≤ c.stop ∧ c.stop ≤ s.stop
  ordered : s.children.Pairwise fun c d => c.stop ≤ d.start

/-- The search for the end of the header cuts only where it may, and what it finds is a cut. -/
theorem headerEndFrom?_eq_some (hstop : s.IsCut s.stop) (cs : List Span) (first : Nat)
    (hfirst : s.IsCut first) (hend : first ≤ s.stop) (hle : ∀ c ∈ cs, first ≤ c.start)
    (hord : cs.Pairwise fun c d => c.stop ≤ d.start)
    (hcs : ∀ c ∈ cs, s.IsCut c.start ∧ s.IsCut c.stop ∧ c.stop ≤ s.stop) :
    ∃ found, s.headerEndFrom? first cs = some found ∧ ∀ n, found = some n → s.IsCut n := by
  induction cs generalizing first with
  | nil =>
    obtain ⟨t, hgap, hcut⟩ := hfirst.gap? hstop hend
    refine ⟨(colonOffset t).map (first + · + 1), by simp [headerEndFrom?, hgap], fun n hn => ?_⟩
    obtain ⟨i, hi, rfl⟩ := Option.map_eq_some_iff.mp hn
    obtain ⟨a, b, rfl, -, rfl⟩ := colonOffset_eq_some hi
    have hbehind := hcut (a ++ [':']) b (by simp)
    rwa [Text.byteLength_append, ← Nat.add_assoc] at hbehind
  | cons c cs ih =>
    obtain ⟨hstart, hstop', hin⟩ := hcs c List.mem_cons_self
    obtain ⟨t, hgap, hcut⟩ := hfirst.gap? hstart (hle c List.mem_cons_self)
    cases hi : colonOffset t with
    | some i =>
      refine ⟨some (first + i + 1), by simp [headerEndFrom?, hgap, hi], fun n hn => ?_⟩
      obtain rfl := Option.some.inj hn
      obtain ⟨a, b, rfl, -, rfl⟩ := colonOffset_eq_some hi
      have hbehind := hcut (a ++ [':']) b (by simp)
      rwa [Text.byteLength_append, ← Nat.add_assoc] at hbehind
    | none =>
      obtain ⟨found, hfound, hcuts⟩ := ih c.stop hstop' hin (List.pairwise_cons.mp hord).1
        (List.pairwise_cons.mp hord).2 fun d hd => hcs d (List.mem_cons_of_mem _ hd)
      exact ⟨found, by simp [headerEndFrom?, hgap, hi, hfound], hcuts⟩

theorem docstringFrom?_eq_some (cs : List Span) (first : Nat) (hfirst : s.IsCut first)
    (hcs : ∀ c ∈ cs, s.IsCut c.start ∧ s.IsCut c.stop) :
    ∃ found, s.docstringFrom? first cs = some found := by
  induction cs generalizing first with
  | nil => exact ⟨none, rfl⟩
  | cons c cs ih =>
    have htail : ∀ d ∈ cs, s.IsCut d.start ∧ s.IsCut d.stop := fun d hd =>
      hcs d (List.mem_cons_of_mem _ hd)
    obtain ⟨hstart, hstop⟩ := hcs c List.mem_cons_self
    rw [docstringFrom?]
    by_cases hlt : c.start < first
    · rw [if_pos hlt]
      exact ih first hfirst htail
    · obtain ⟨t, hgap, -⟩ := hfirst.gap? hstart (Nat.le_of_not_lt hlt)
      rw [if_neg hlt, hgap]
      simp only [Option.bind_eq_bind, Option.bind_some]
      split
      · exact ⟨none, rfl⟩
      · split
        · exact ih c.stop hstop htail
        · exact ⟨_, rfl⟩

theorem Gapped.docstring? (h : s.Gapped) : s.docstring? = some s.docstring := by
  have hend : s.start ≤ s.stop := by
    obtain ⟨front, t, -, hstop⟩ := h.stop
    omega
  obtain ⟨found, hfound, hcut⟩ := headerEndFrom?_eq_some h.stop s.children s.start isCut_start hend
    (fun c hc => (h.inside c hc).1) h.ordered
    fun c hc => ⟨(h.cuts c hc).1, (h.cuts c hc).2, (h.inside c hc).2.2⟩
  have hsome : ∃ doc, s.docstring? = some doc := by
    rw [Span.docstring?, hfound]
    cases found with
    | none => exact ⟨none, rfl⟩
    | some first => exact docstringFrom?_eq_some s.children first (hcut first rfl) h.cuts
  obtain ⟨doc, hdoc⟩ := hsome
  rw [docstring, hdoc]
  rfl

/-- A span that divides its text has a checked own text and a checked docstring. -/
theorem Divides.gapped {source : Text} (h : s.Divides source)
    (hc : ∀ c ∈ s.children, c.Divides source) : s.Gapped where
  stop := by
    obtain ⟨a, b, -, ha, hstop⟩ := Text.slice?_eq_some_iff.mp h.slice
    exact ⟨s.text, [], by simp, hstop.symm⟩
  cuts c hmem := by
    have hin := h.inside c hmem
    obtain ⟨a, b, hab, ha, hlen⟩ := Text.slice?_eq_some_iff.mp
      (Text.slice?_inner h.slice (hc c hmem).slice (by omega) hin.2.2)
    refine ⟨⟨a, c.text ++ b, hab, by omega⟩, a ++ c.text, b, by rw [hab, List.append_assoc], ?_⟩
    rw [Text.byteLength_append]
    omega
  inside c hmem := by
    have hin := h.inside c hmem
    omega
  ordered := h.ordered

/-- Everything that an outline cuts out of a span has an answer. -/
structure Checks (s : Span) : Prop where
  own : s.ownText? = some s.ownText
  doc : s.docstring? = some s.docstring

theorem Divides.checks {source : Text} (h : s.Divides source)
    (hc : ∀ c ∈ s.children, c.Divides source) : s.Checks where
  own := by
    obtain ⟨own, hown, -⟩ := h.restored
    rw [ownText, hown]
    rfl
  doc := (h.gapped hc).docstring?

end Span

namespace Signature

variable {s : Span}

theorem parameters?_eq (h : ∀ c ∈ s.children, c.Checks) :
    parameters? s = some (parameters s) := by
  unfold parameters? parameters
  cases hf : s.children.find? (·.kind == .bracket) with
  | none => rfl
  | some list =>
    have hown := (h list (List.mem_of_find?_eq_some hf)).own
    have hnames : (parameterItems list.ownText).mapM parameterName? =
        some ((parameterItems list.ownText).map parameterName) := by
      rw [funext parameterName?_eq]
      exact List.mapM_pure
    simp only [hown, Option.bind_eq_bind, Option.bind_some, hnames, List.filterMap_map,
      Function.id_comp]
    rfl

theorem ofSpan?_eq (h : ∀ c ∈ s.children, c.Checks) : ofSpan? s = some (ofSpan s) := by
  unfold ofSpan? ofSpan
  rw [parameters?_eq h]
  split
  · rfl
  · split <;> rfl

end Signature

theorem Findings.ofSpan?_eq {s : Span} (gs : GrammarSet) (sig : Signature) (h : s.Checks) :
    ofSpan? gs sig s = some (ofSpan gs sig s) := by
  unfold ofSpan? ofSpan
  rw [h.doc]
  cases gs.forKind s.kind with
  | none => rfl
  | some g => cases s.docstring <;> rfl

namespace Outline

variable {s : Span}

theorem node?_eq (gs : GrammarSet) (name : Text) (children : List Outline) (h : s.Checks)
    (hc : ∀ c ∈ s.children, c.Checks) :
    node? gs name s children = some (node gs name s children) := by
  unfold node? node
  rw [Signature.ofSpan?_eq hc]
  simp only [Option.bind_eq_bind, Option.bind_some, Findings.ofSpan?_eq gs _ h]
  split <;> rfl

theorem nestedIn?_eq (gs : GrammarSet) (spans : List Span)
    (hc : ∀ c ∈ spans, nested? gs c = some (nested gs c))
    (h : ∀ c ∈ spans, ∀ d ∈ c.preorder, d.Checks) :
    nestedIn? gs spans = some (nestedIn gs spans) := by
  induction spans with
  | nil => rfl
  | cons c spans ih =>
    have hchecks := h c List.mem_cons_self
    have hnode := node?_eq gs c.name (nested gs c) (hchecks c c.self_mem_preorder)
      fun d hd => hchecks d (Span.child_mem_preorder hd)
    rw [nestedIn?, nestedIn, hc c List.mem_cons_self,
      ih (fun d hd => hc d (List.mem_cons_of_mem _ hd)) fun d hd => h d (List.mem_cons_of_mem _ hd)]
    simp only [Option.bind_eq_bind, Option.bind_some, hnode]
    split <;> rfl

theorem nested?_eq (gs : GrammarSet) (h : ∀ d ∈ s.preorder, d.Checks) :
    nested? gs s = some (nested gs s) := by
  induction s using Span.tree_induction with
  | node s ih =>
    have hbelow : ∀ c ∈ s.children, ∀ d ∈ c.preorder, d.Checks := fun c hc d hd =>
      h d (Span.mem_preorder.mpr (Or.inr ⟨c, hc, hd⟩))
    have hkids := nestedIn?_eq gs s.children (fun c hc => ih c hc (hbelow c hc)) hbelow
    cases s
    rw [nested?, nested]
    exact hkids

theorem ofSpan?_eq (gs : GrammarSet) (name : Text) (h : ∀ d ∈ s.preorder, d.Checks) :
    ofSpan? gs name s = some (ofSpan gs name s) := by
  rw [ofSpan?, nested?_eq gs h]
  exact node?_eq gs name _ (h s s.self_mem_preorder) fun c hc => h c (Span.child_mem_preorder hc)

end Outline

/-- In a scanned tree every cut of an outline has an answer. -/
theorem checks_of_scan {options : ScanOptions} {source : Text} {tree : Span}
    (h : scan options source = .ok tree) : ∀ d ∈ tree.preorder, d.Checks := by
  intro d hd
  exact (divides_of_mem_preorder h hd).checks fun c hc =>
    divides_of_mem_preorder h (Span.preorder_trans (Span.child_mem_preorder hc) hd)

/-- An analysis by byte offsets with every cut checked. -/
def analyze? (gs : GrammarSet) (options : ScanOptions) (path source : Text) : Checked Analysis :=
  match Offsets.scan? Rule.standard options source with
  | none => none
  | some (.error e) => some (.error e)
  | some (.ok tree) =>
    (Outline.ofSpan? gs (baseName path) tree).map fun outline =>
      .ok ⟨path, tree, outline, warningsOf source tree⟩

/-- A checked analysis breaks off only where the scan splits a character; the outline never does. -/
theorem analyze?_eq (gs : GrammarSet) (options : ScanOptions) (path source : Text) :
    analyze? gs options path source = .ofScan (analyze gs options path source) := by
  rw [analyze?, analyze, Offsets.scan?_eq Rule.standard_regular Rule.standard_passesBlanks]
  cases hscan : scan options source with
  | error e => cases e <;> simp only [scan] at hscan <;> rw [hscan] <;> rfl
  | ok tree =>
    have houtline := Outline.ofSpan?_eq gs (baseName path) (checks_of_scan hscan)
    rw [scan] at hscan
    rw [hscan]
    simp only [Checked.ofScan, houtline, Option.map_some]

/-- A scan with levels enough splits a character exactly if the tree of whole openers has a class
attribute whose name does not start with an ASCII character, and gives that tree otherwise. The
analysis of a file that was scanned cuts texts only where and in the order it may. -/
theorem scan_splits_iff (source : Text) (options : ScanOptions) (hlive : options.Untimed)
    (hdepth : Text.byteLength source ≤ options.maxDepth) :
    (∃ tree, Rule.whole.scan options source = .ok tree ∧
      ((∃ offset, scan options source = .error (.openerSplitsCharacter offset)) ↔
        ∃ s ∈ tree.preorder, s.splitsCharacter = true) ∧
      (Offsets.scan? Rule.standard options source = none ↔
        ∃ s ∈ tree.preorder, s.splitsCharacter = true) ∧
      ((∀ s ∈ tree.preorder, s.splitsCharacter = false) → scan options source = .ok tree)) ∧
    ∀ tree, scan options source = .ok tree → ∀ gs path, ∃ a,
      analyze gs options path source = .ok a ∧ a.tree = tree ∧
        analyze? gs options path source = some (.ok a) ∧
        ∀ s ∈ tree.preorder, s.name? = some s.name := by
  obtain ⟨tree, hwhole, hscan⟩ := exists_whole_tree source
  have hshallow : tree.firstAt (options.maxDepth + 1) = none :=
    firstAt_whole_tree (hwhole _ (fun _ => rfl) (Nat.le_refl _)) (Nat.lt_succ_of_le hdepth)
  have hout := (hscan options hlive).trans (Span.outcome_of_shallow hshallow)
  refine ⟨⟨tree, hwhole options hlive hdepth, ?_, ?_, fun hfree => ?_⟩, fun tree' h gs path => ?_⟩
  · rw [hout, ← List.find?_isSome]
    cases tree.preorder.find? Span.splitsCharacter <;> simp
  · rw [Offsets.scan?_eq Rule.standard_regular Rule.standard_passesBlanks, ← scan, hout,
      ← List.find?_isSome]
    cases tree.preorder.find? Span.splitsCharacter <;> simp [Checked.ofScan]
  · have hnone : tree.preorder.find? Span.splitsCharacter = none :=
      List.find?_eq_none.mpr fun s hs => by simp [hfree s hs]
    rw [hout, hnone]
  · have ha : analyze gs options path source =
        .ok ⟨path, tree', Outline.ofSpan gs (baseName path) tree', warningsOf source tree'⟩ := by
      rw [analyze, h]
    exact ⟨_, ha, rfl, by rw [analyze?_eq, ha]; rfl, fun s _ => s.name?_eq⟩

/-- A class attribute with an accent on its first letter. -/
theorem scan_splits_iff_accent :
    Text.byteLength "class A:\n    é = 1\n" ≤ 256 ∧
    Offsets.scan? Rule.standard {} "class A:\n    é = 1\n" = none ∧
    ∃ tree, Rule.whole.scan {} "class A:\n    é = 1\n" = .ok tree ∧
      ∃ s ∈ tree.preorder, s.splitsCharacter = true := by
  have hfail : (scan {} "class A:\n    é = 1\n").toOption.isSome = false := by
    decide +kernel
  obtain ⟨⟨tree, hwhole, -, hnone, hfree⟩, -⟩ :=
    scan_splits_iff "class A:\n    é = 1\n" {} (fun _ => rfl) (by decide)
  have hsplits : ∃ s ∈ tree.preorder, s.splitsCharacter = true := by
    by_contra hno
    simp only [not_exists, not_and, Bool.not_eq_true] at hno
    rw [hfree hno] at hfail
    cases hfail
  exact ⟨by decide, hnone.mpr hsplits, tree, hwhole, hsplits⟩

end DocCoverage
