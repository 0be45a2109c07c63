import Mathlib.Data.List.Chain
import DocCoverage.Proofs.Scan.Literals

/-!
# Literals written one after the other

String literals of one line that are written without anything between them. The scanner finds each
of them as a child of its own exactly if neighbours have different quotes: behind a quote, the same
quote opens nothing, whether the literal in front of it is empty or not. Nothing is said about what
the scanner finds where two neighbours have the same quote.
-/
namespace DocCoverage

open Rule (standard)

/-- The text ends in an odd run of backslashes. -/
def Text.endsEscaping (t : Text) : Bool := (t.reverse.takeWhile (· == '\\')).length % 2 == 1

def Text.quoteOf (double : Bool) : Char := if double then '"' else '\''

/-- A literal of one line that is not empty. Inside, its own quote is escaped everywhere, and its
closing quote is not. -/
structure Literal where
  double : Bool
  body : Text
  body_ne_nil : body ≠ []
  oneLine : '\n' ∉ body
  escaped : ∀ a b, body = a ++ Text.quoteOf double :: b → Text.endsEscaping a = true
  closed : Text.endsEscaping body = false

namespace Literal

variable (l : Literal)

def quote : Char := Text.quoteOf l.double

def kind : SpanKind := if l.double then .doubleString else .singleString

def text : Text := l.quote :: (l.body ++ [l.quote])

/-- An assignment of literals that are written one after the other. -/
def assignment (ls : List Literal) : Text := "x = " ++ ls.flatMap text ++ "\n"

/-- The kinds of the literals and where they start and end, the first at the given offset. -/
def placesFrom : Nat → List Literal → List (SpanKind × Nat × Nat)
  | _, [] => []
  | start, l :: ls =>
    (l.kind, start, start + Text.byteLength l.text) ::
      placesFrom (start + Text.byteLength l.text) ls

/-- The tree of a file with one child for each literal, which covers it, and without unterminated
spans. -/
structure Tokenized (ls : List Literal) (tree : Span) : Prop where
  file : tree.kind = .file
  places : tree.children.map (fun s => (s.kind, s.start, s.stop)) = placesFrom 4 ls
  closed : ∀ s ∈ tree.preorder, s.unterminated = false

variable {l}

/-! ## One literal -/

theorem assignment_eq (ls : List Literal) :
    assignment ls = ['x', ' ', '=', ' '] ++ (ls.flatMap text ++ ['\n']) := by
  rw [assignment]
  simp only [String.reduceToList, List.append_assoc]

/-- What may stand in front of the opening quote. -/
def before (l : Literal) (c : Char) : Bool := !(c == '\\' || c == l.quote)

theorem rule_eq (l : Literal) : standard l.kind = Rule.quoted l.before l.quote [] := by
  have hbefore : l.before = fun c => !(c == '\\' || c == l.quote) := rfl
  rw [hbefore, kind, quote, Text.quoteOf]
  cases l.double <;> rfl

theorem quote_cases (l : Literal) : l.quote = '"' ∨ l.quote = '\'' := by
  rw [quote, Text.quoteOf]
  cases l.double with
  | true => exact Or.inl rfl
  | false => exact Or.inr rfl

theorem quote_size (l : Literal) : l.quote.utf8Size = 1 := by
  rcases l.quote_cases with h | h <;> rw [h] <;> rfl

theorem quote_ne_slash (l : Literal) : (l.quote == '\\') = false := by
  rcases l.quote_cases with h | h <;> rw [h] <;> rfl

/-- Behind the opening quote, escaping is a matter of the body alone. -/
theorem escaped_eq (l : Literal) (t v : Text) :
    Cursor.escaped ⟨t.reverse ++ [l.quote], v⟩ = t.endsEscaping := by
  have hquote : [l.quote].takeWhile (· == '\\') = [] :=
    List.takeWhile_cons_of_neg (by rw [l.quote_ne_slash]; exact Bool.false_ne_true)
  have hrun : (t.reverse ++ [l.quote]).takeWhile (· == '\\') = t.reverse.takeWhile (· == '\\') := by
    rw [List.takeWhile_append, hquote]
    split
    · rename_i h
      rw [List.append_nil]
      exact (List.takeWhile_prefix _).eq_of_length h |>.symm
    · rfl
  rw [Cursor.escaped, hrun]
  rfl

variable {options : ScanOptions} {levels : Nat} {o : Opening} {p : Progress} {v : Text}

theorem scanSpan_literal (levels : Nat) (hexpired : options.Untimed)
    (hkind : o.kind = l.kind) (htext : o.text = l.text ++ v) :
    ∃ r, scanSpan standard options (levels + 1) o = .ok r ∧ o.Covers l.text [] r := by
  have hrule : standard o.kind = Rule.quoted l.before l.quote [] := by rw [hkind, l.rule_eq]
  have hidle : ∀ back t, RuleTable.dispatch standard (standard o.kind) ⟨back, t⟩ = none := by
    intro back t
    rw [hrule]
    exact RuleTable.dispatch_eq_none fun k hk => absurd hk List.not_mem_nil
  have hcloses : ∀ (a : Text) c t, (standard o.kind).ending.closes o.indent
      ⟨a.reverse ++ [l.quote], c :: t⟩ = (!a.endsEscaping && c == l.quote) := by
    intro a c t
    rw [hrule, ← l.escaped_eq a (c :: t)]
    rfl
  have hparts : o.text = [l.quote] ++ (l.body ++ ([l.quote] ++ v)) := by
    rw [htext, text]
    simp
  have hsize : Text.byteLength [l.quote] = 1 := by
    rw [Text.byteLength_cons, l.quote_size]
    rfl
  refine scanSpan_leaf hexpired hparts (by rw [hrule]; exact hsize) (by rw [hrule]; exact hsize) rfl
    ?_ (hidle _ _) ?_ (Rule.standard_regular.resume_le _)
  · intro a d b hbody
    refine ⟨hidle _ _, (hcloses a d _).trans ?_⟩
    by_cases hd : d = l.quote
    · rw [l.escaped a b (hbody.trans (by rw [hd]; rfl))]
      rfl
    · rw [beq_false_of_ne hd, Bool.and_false]
  · refine (hcloses l.body l.quote v).trans ?_
    rw [l.closed, beq_self_eq_true]
    rfl

/-- A character behind which a literal opens and is no formatted one. -/
def Ready (l : Literal) (c : Char) : Prop := c ≠ l.quote ∧ c ∉ ['\\', 'f', 'F']

/-- A literal opens wherever literals of its sort may stand. -/
theorem dispatch_literal {parent : Rule} (hparent : l.kind ∈ parent.children) {back : Text}
    {c : Char} (hc : l.Ready c) :
    RuleTable.dispatch standard parent ⟨c :: back, l.text ++ v⟩ = some l.kind := by
  obtain ⟨d, body, hbody⟩ := List.exists_cons_of_ne_nil l.body_ne_nil
  have hd : d ≠ l.quote := by
    rintro rfl
    exact absurd (l.escaped [] body hbody) (by decide)
  obtain ⟨hquote, hother⟩ := hc
  simp only [List.mem_cons, List.not_mem_nil, or_false, not_or] at hother
  obtain ⟨hslash, hlower, hupper⟩ := hother
  have hopens : (standard l.kind).opens ⟨c :: back, l.text ++ v⟩ = true := by
    rw [l.rule_eq, text, hbody]
    simp [Rule.opens, Rule.quoted, Rule.only, Rule.starts, Cursor.before, before, hd, hslash,
      hquote]
  have hothers : ∀ j ∈ SpanKind.priority.takeWhile (· != l.kind), j ≠ .formattedSingleString →
      j ≠ .formattedDoubleString → (standard j).current l.quote = false := by
    rw [kind, quote, Text.quoteOf]
    cases l.double <;> decide
  -- a formatted string needs its letter in front of the quote
  have hformatted : ∀ j, j = .formattedSingleString ∨ j = .formattedDoubleString →
      (standard j).opens ⟨c :: back, l.text ++ v⟩ = false := by
    intro j hj
    rw [Bool.eq_false_iff]
    intro h
    have hbefore : (c == 'f' || c == 'F') = true := by
      rcases hj with rfl | rfl <;> exact (Rule.opens_cons h).2.1
    rw [beq_false_of_ne hlower, beq_false_of_ne hupper] at hbefore
    cases hbefore
  refine RuleTable.dispatch_of_first hparent hopens fun j hj _ => ?_
  by_cases hsingle : j = .formattedSingleString
  · exact hformatted j (Or.inl hsingle)
  · by_cases hdouble : j = .formattedDoubleString
    · exact hformatted j (Or.inr hdouble)
    · rw [Bool.eq_false_iff]
      intro h
      have hcurrent := (Rule.opens_cons h).1
      rw [hothers j hj hsingle hdouble] at hcurrent
      cases hcurrent

/-- A literal does not open behind a quote of its own sort. -/
theorem ne_quote_of_dispatch {back : Text} {c : Char} {parent : Rule}
    (h : RuleTable.dispatch standard parent ⟨c :: back, l.text ++ v⟩ = some l.kind) :
    c ≠ l.quote := by
  have hopens := (RuleTable.dispatch_eq_some h).2
  rw [l.rule_eq] at hopens
  have hbefore : l.before c = true := (Rule.opens_cons hopens).2.1
  rintro rfl
  rw [before, beq_self_eq_true, Bool.or_true] at hbefore
  cases hbefore

/-! ## Literals one after the other -/

theorem quote_ne_iff {l l' : Literal} : l.quote ≠ l'.quote ↔ l.double ≠ l'.double := by
  rw [quote, quote, Text.quoteOf, Text.quoteOf]
  cases l.double <;> cases l'.double <;> decide

theorem placesFrom_append (start : Nat) (a b : List Literal) : placesFrom start (a ++ b) =
    placesFrom start a ++ placesFrom (start + Text.byteLength (a.flatMap text)) b := by
  induction a generalizing start with
  | nil => rfl
  | cons l a ih =>
    rw [List.cons_append, placesFrom, ih, placesFrom, List.cons_append, List.flatMap_cons,
      Text.byteLength_append, Nat.add_assoc]

/-- Where every literal is a child of its own, neighbours have different quotes. -/
theorem Tokenized.isChain {ls : List Literal} {tree : Span}
    (hscan : scan options (assignment ls) = .ok tree) (h : Tokenized ls tree) :
    ls.IsChain fun l l' => l.double ≠ l'.double := by
  apply List.isChain_iff_forall_rel_of_append_cons_cons.mpr
  intro l l' a b hls
  have hplace : (l'.kind, 4 + Text.byteLength ((a ++ [l]).flatMap text), 4 +
      Text.byteLength ((a ++ [l]).flatMap text) + Text.byteLength l'.text) ∈ placesFrom 4 ls := by
    rw [hls, List.append_cons, placesFrom_append, placesFrom]
    exact List.mem_append_right _ List.mem_cons_self
  rw [← h.places] at hplace
  obtain ⟨s, hs, hplace⟩ := List.mem_map.mp hplace
  simp only [Prod.mk.injEq] at hplace
  obtain ⟨hkind, hstart, -⟩ := hplace
  obtain ⟨back, t, k, hopens⟩ := scan_opensIn hscan tree.self_mem_preorder hs
  obtain ⟨front, hsource, hfront⟩ := hopens.source_eq
  have hzero := (file_stop hscan).2.1
  obtain rfl : front = [] := Text.byteLength_eq_zero.mp (hfront.symm.trans hzero)
  have hlen := hopens.start_eq
  -- the second literal stands right behind the first
  have hdivision : ((['x', ' ', '=', ' '] ++ a.flatMap text) ++ l.text) ++
      (l'.text ++ (b.flatMap text ++ ['\n'])) = back.reverse ++ t := by
    rw [← List.nil_append (back.reverse ++ t), ← hsource, assignment_eq, hls]
    simp [List.flatMap_append]
  obtain ⟨hback, rfl⟩ := Text.append_inj_of_byteLength hdivision (by
    rw [Text.byteLength_reverse]
    simp only [List.flatMap_append, List.flatMap_cons, List.flatMap_nil, List.append_nil,
      Text.byteLength_append] at hstart ⊢
    have hname : Text.byteLength ['x', ' ', '=', ' '] = 4 := rfl
    omega)
  have hquote : back = l.quote :: (l.body.reverse ++ l.quote ::
      (a.flatMap text).reverse ++ [' ', '=', ' ', 'x']) := by
    rw [← List.reverse_reverse back, ← hback, text]
    simp
  have hkind' : k = l'.kind := by
    rw [← hkind]
    apply hopens.kind_of_ne
    rw [hkind, kind]
    cases l'.double <;> decide
  have hdispatch := hopens.dispatch
  rw [hkind', hquote] at hdispatch
  exact quote_ne_iff.mp (ne_quote_of_dispatch hdispatch)

theorem exists_runs_literals (levels : Nat) (hexpired : options.Untimed)
    (hkind : o.kind = .file) {ls : List Literal}
    (hchain : ls.IsChain fun l l' => l.double ≠ l'.double) {c : Char} {back : Text}
    (hback : p.back = c :: back) (hready : ∀ l ∈ ls.head?, l.Ready c)
    (houtside : ¬ p.pos < p.resumeAt) :
    ∃ spans q, Runs standard options (levels + 1) o p (ls.flatMap text) v spans q ∧
      spans.map (fun s => (s.kind, s.start, s.stop)) = placesFrom p.pos ls ∧
      ∀ s ∈ spans, s.unterminated = false ∧ s.children = [] := by
  induction ls generalizing p c back with
  | nil => exact ⟨[], p, .nil houtside, rfl, by simp⟩
  | cons l ls ih =>
    have hplain : o.kind ≠ .decorator := by
      rw [hkind]
      decide
    have hopens : RuleTable.dispatch standard (standard o.kind)
        ⟨p.back, l.text ++ (ls.flatMap text ++ v)⟩ = some l.kind := by
      have hchild : l.kind ∈ (standard .file).children := by
        rw [kind]
        cases l.double <;> decide
      rw [hkind, hback]
      exact dispatch_literal hchild (hready l rfl)
    obtain ⟨r, hr, hcovers⟩ := scanSpan_literal levels hexpired
      (Opening.inner_kind (o := o) (p := p) hplain l.kind _) rfl
    obtain ⟨q, hruns⟩ := exists_runs_child (w := l.text) houtside (List.cons_ne_nil _ _) hopens hr
      hcovers (by rw [hkind]; rfl)
    have hnext : q.back = l.quote :: (l.body.reverse ++ l.quote :: p.back) := by
      rw [hruns.back, text]
      simp
    have hready' : ∀ l' ∈ ls.head?, l'.Ready l.quote := by
      intro l' hl'
      obtain ⟨ls', rfl⟩ := List.head?_eq_some_iff.mp hl'
      refine ⟨quote_ne_iff.mpr (List.isChain_cons_cons.mp hchain).1, ?_⟩
      rcases l.quote_cases with h | h <;> rw [h] <;> decide
    obtain ⟨spans, q', hrest, hplaces, hspans⟩ := ih hchain.tail hnext hready' hruns.outside
    rw [Opening.inner_span hplain] at hruns
    refine ⟨_, q', hruns.trans hrest, ?_, ?_⟩
    · rw [List.singleton_append, List.map_cons, hplaces, hruns.pos]
      rfl
    · intro s hs
      rcases List.mem_cons.mp hs with rfl | hs
      · exact ⟨rfl, rfl⟩
      · exact hspans s hs

theorem ready_space : l.Ready ' ' := by
  refine ⟨?_, by decide⟩
  rcases l.quote_cases with h | h <;> rw [h] <;> decide

theorem exists_tokenized (hexpired : options.Untimed) (hdepth : 1 ≤ options.maxDepth)
    {ls : List Literal} (hchain : ls.IsChain fun l l' => l.double ≠ l'.double) :
    ∃ tree, scan options (assignment ls) = .ok tree ∧ Tokenized ls tree := by
  obtain ⟨levels, hlevels⟩ := Nat.exists_eq_add_of_le' hdepth
  let o : Opening := ⟨.file, 0, 0, assignment ls⟩
  have hidle : ∀ c ∈ ['x', ' ', '=', ' ', '\n'], ∀ back t,
      RuleTable.Quiet standard .file 0 ⟨back, c :: t⟩ := by
    intro c hc back t
    have hdull : ∀ c ∈ ['x', ' ', '=', ' ', '\n'], RuleTable.dull standard .file c = true :=
      Text.forall_of_all (by decide)
    exact ⟨RuleTable.dispatch_of_dull (hdull c hc) back t, rfl⟩
  obtain ⟨q₁, hname⟩ : ∃ q, Runs standard options (levels + 1) o (o.begin []) ['x', ' ', '=', ' ']
      (ls.flatMap text ++ ['\n']) [] q :=
    exists_runs_chars (Nat.not_lt_zero _) fun c hc => hidle c (List.mem_append_left ['\n'] hc)
  obtain ⟨spans, q₂, hliterals, hplaces, hspans⟩ := exists_runs_literals levels
    (v := ['\n']) hexpired (o := o) rfl hchain hname.back (fun l _ => ready_space) hname.outside
  have hfeed : Runs standard options (levels + 1) o q₂ ['\n'] [] [] _ :=
    .step hliterals.outside (hidle '\n' (by simp) _ _)
  have hparts : o.text = [] ++ ((['x', ' ', '=', ' '] ++ ls.flatMap text) ++ ['\n']) := by
    rw [List.nil_append, List.append_assoc, ← assignment_eq]
  obtain ⟨r, hr, hcovers⟩ := scanSpan_ends hexpired hparts rfl rfl
    ((hname.trans hliterals).trans hfeed)
  rw [← hparts, List.nil_append, List.append_nil] at hcovers
  refine ⟨r.span, RuleTable.scan_eq_ok_iff.mpr ⟨r.consumed, by rw [hlevels]; exact hr⟩, ?_⟩
  have hpos : q₁.pos = 4 := by
    rw [hname.pos]
    rfl
  rw [hcovers.span]
  refine ⟨rfl, by rw [← hpos, ← hplaces]; rfl, fun s hs => ?_⟩
  rcases List.mem_cons.mp hs with rfl | hs
  · rfl
  · obtain ⟨c, hc, hs⟩ := Span.mem_descendants.mp hs
    have hmem : c ∈ spans := by simpa [Opening.span] using hc
    obtain ⟨hclosed, hleaf⟩ := hspans c hmem
    rcases List.mem_cons.mp hs with rfl | hs
    · exact hclosed
    · rw [Span.descendants_eq, hleaf] at hs
      cases hs

end Literal

/-- A literal without quotes of its own sort and backslashes. -/
def Literal.plain (double : Bool) (body : Text) (h : body ≠ [])
    (hbody : ∀ c ∈ body, c ≠ Text.quoteOf double ∧ c ≠ '\\' ∧ c ≠ '\n') : Literal where
  double := double
  body := body
  body_ne_nil := h
  oneLine hmem := (hbody _ hmem).2.2 rfl
  escaped a b heq := absurd rfl (hbody (Text.quoteOf double) (by simp [heq])).1
  closed := by
    have hrun : body.reverse.takeWhile (· == '\\') = [] := by
      cases hrev : body.reverse with
      | nil => rfl
      | cons c t =>
        have hc : c ∈ body := List.mem_reverse.mp (hrev ▸ List.mem_cons_self)
        exact List.takeWhile_cons_of_neg (by simpa using (hbody c hc).2.1)
    rw [Text.endsEscaping, hrun]
    rfl

open Literal in
/-- Literals that are written one after the other are found one by one exactly if neighbours have
different quotes. -/
theorem scan_literals_iff {options : ScanOptions} (hexpired : options.Untimed)
    (hdepth : 1 ≤ options.maxDepth) (ls : List Literal) :
    (∃ tree, scan options (assignment ls) = .ok tree ∧ Tokenized ls tree) ↔
      ls.IsChain fun l l' => l.double ≠ l'.double := by
  constructor
  · intro h
    obtain ⟨tree, hscan, htree⟩ := h
    exact htree.isChain hscan
  · exact exists_tokenized hexpired hdepth

namespace Literal

def singleA : Literal := plain false ['a'] (by decide) (Text.forall_of_all (by decide))

def singleB : Literal := plain false ['b'] (by decide) (Text.forall_of_all (by decide))

def doubleB : Literal := plain true ['b'] (by decide) (Text.forall_of_all (by decide))

end Literal

open Literal in
theorem scan_literals_iff_alternating : ({} : ScanOptions).Untimed ∧
    1 ≤ ({} : ScanOptions).maxDepth ∧
    ∃ tree, scan {} (assignment [singleA, doubleB, singleB]) = .ok tree ∧
      Tokenized [singleA, doubleB, singleB] tree :=
  ⟨fun _ => rfl, by decide, (scan_literals_iff (fun _ => rfl) (by decide) _).mpr (by decide)⟩

open Literal in
/-- Behind a literal with the same quote, the opening quote is passed over and the closing quote
opens a string that is never closed. -/
theorem scan_literals_same_quote :
    (¬ ∃ tree, scan {} (assignment [singleA, singleB]) = .ok tree ∧
      Tokenized [singleA, singleB] tree) ∧
    ∃ tree, scan {} (assignment [singleA, singleB]) = .ok tree ∧
      tree.children.map (fun s => (s.kind, s.start, s.stop)) =
        [(.singleString, 4, 7), (.singleString, 9, 11)] ∧
      ∃ s ∈ tree.children, s.start = 9 ∧ s.unterminated = true := by
  have htest : (scan {} (assignment [singleA, singleB])).toOption.any (fun tree =>
      tree.children.map (fun s => (s.kind, s.start, s.stop)) ==
        [(.singleString, 4, 7), (.singleString, 9, 11)] &&
      tree.children.any fun s => s.start == 9 && s.unterminated) = true := by decide +kernel
  obtain ⟨tree, htree, htest⟩ := scan_ok_of_any htest
  simp only [Bool.and_eq_true, beq_iff_eq, List.any_eq_true] at htest
  obtain ⟨hplaces, hopen⟩ := htest
  refine ⟨?_, tree, htree, hplaces, hopen⟩
  intro h
  obtain ⟨tree', htree', htokenized⟩ := h
  obtain rfl : tree = tree' := Except.ok.inj (htree.symm.trans htree')
  rw [htokenized.places] at hplaces
  exact absurd hplaces (by decide)

end DocCoverage
