import DocCoverage.Proofs.Sketch.Source

/-!
# The span tree of a sketch

The function of a sketch runs to the end of the file, because every line below its header is
indented. Its children are the parameter list, the docstring and the statements, in this order.
-/
namespace DocCoverage

open Rule (standard)
open Standard (indent line docText)
open Text (isAsciiWord joinWith)

namespace Sketch

variable {options : ScanOptions} {levels : Nat} {o : Opening} {p : Progress} {rest : Text}

/-- A character of a definition that starts no child and ends no line. -/
def isIdle (kind : SpanKind) (c : Char) : Bool := RuleTable.dull standard kind c && c != '\n'

theorem dedents_eq_false {c : Char} (hc : c ≠ '\n') (n : Nat) (exempt : List Char) (t : Text) :
    dedents n exempt (c :: t) = false := by
  unfold dedents
  split
  · rename_i h
    exact absurd (List.cons.inj h).1 hc
  · rfl

theorem definition_closes {kind : SpanKind} (h : kind.isDefinition = true) (n : Nat)
    (cur : Cursor) : (standard kind).ending.closes n cur = dedents n [] cur.ahead := by
  cases kind with
  | classDef | function | method | classMethod => rfl
  | _ => cases h

section

variable {kind : SpanKind} (hdefinition : kind.isDefinition = true)
include hdefinition

theorem exists_runs_idle {u v : Text} (hkind : o.kind = kind) (houtside : ¬ p.pos < p.resumeAt)
    (hu : u.all (isIdle kind) = true) : ∃ q, Runs standard options levels o p u v [] q := by
  apply exists_runs_chars houtside
  intro c hc back t
  have hidle := List.all_eq_true.mp hu c hc
  rw [isIdle, Bool.and_eq_true, bne_iff_ne] at hidle
  rw [hkind]
  refine ⟨RuleTable.dispatch_of_dull hidle.1 _ _, ?_⟩
  rw [definition_closes hdefinition]
  exact dedents_eq_false hidle.2 _ _ _

theorem dull_of_definition {c : Char} (hc : c = '\n' ∨ c = ' ') :
    RuleTable.dull standard kind c = true := by
  cases kind with
  | classDef | function | method | classMethod => rcases hc with rfl | rfl <;> decide
  | _ => cases hdefinition

/-- A line that is indented deeper than the definition does not end it. -/
theorem quiet_feed (back t : Text) :
    RuleTable.Quiet standard kind 0 ⟨back, '\n' :: (indent ++ t)⟩ := by
  refine ⟨RuleTable.dispatch_of_dull (dull_of_definition hdefinition (Or.inl rfl)) _ _, ?_⟩
  rw [definition_closes hdefinition]
  simp [dedents, leadingSpaces, indent]

theorem quiet_lastFeed (back : Text) : RuleTable.Quiet standard kind 0 ⟨back, ['\n']⟩ := by
  refine ⟨RuleTable.dispatch_of_dull (dull_of_definition hdefinition (Or.inl rfl)) _ _, ?_⟩
  rw [definition_closes hdefinition]
  rfl

/-- A line feed and the indentation of the next line. -/
theorem exists_runs_feed {v : Text} (hkind : o.kind = kind) (hindent : o.indent = 0)
    (houtside : ¬ p.pos < p.resumeAt) :
    ∃ q, Runs standard options levels o p ('\n' :: indent) v [] q := by
  have hfeed : Runs standard options levels o p ['\n'] (indent ++ v) [] _ :=
    .step houtside (by rw [hkind, hindent]; exact quiet_feed hdefinition _ _)
  have hspaces : indent.all (isIdle kind) = true := by
    rw [List.all_eq_true]
    intro c hc
    obtain rfl : c = ' ' := eq_of_beq (Standard.indent_blank c hc)
    rw [isIdle, dull_of_definition hdefinition (Or.inr rfl)]
    rfl
  obtain ⟨q, hruns⟩ : ∃ q, Runs standard options levels o _ indent v [] q :=
    exists_runs_idle hdefinition hkind hfeed.outside hspaces
  exact ⟨q, hfeed.trans hruns⟩

end

/-- An `s` inside a word of a function body opens nothing. -/
theorem quiet_in_word {d : Char} (hd : isAsciiWord d = true) (back t : Text) :
    RuleTable.Quiet standard .function 0 ⟨d :: back, 's' :: t⟩ := by
  have hcurrent : ∀ k ∈ (standard .function).children, k ≠ .selfAttribute →
      (standard k).current 's' = false := by decide
  refine ⟨RuleTable.dispatch_eq_none fun k hk => ?_, rfl⟩
  by_cases hself : k = .selfAttribute
  · rw [hself]
    exact Rule.selfAttribute_opens_in_word hd _ _
  · rw [Bool.eq_false_iff]
    intro hopens
    have hs := (Rule.opens_cons hopens).1
    rw [hcurrent k hk hself] at hs
    cases hs

/-- At a character where only some children could start, another child does not open. -/
theorem not_opens_of_current {k : SpanKind} {c : Char} (h : (standard k).current c = false)
    (back t : Text) : (standard k).opens ⟨back, c :: t⟩ = false := by
  rw [Bool.eq_false_iff]
  intro hopens
  rw [(Rule.opens_cons hopens).1] at h
  cases h

theorem operand_word {direct : List Char} {w t : Text} {c : Char} (hspace : c ≠ ' ')
    (hc : Rule.statementEnd c = false) : Rule.operand direct w (w ++ ' ' :: c :: t) = true := by
  have hdrop : Text.dropPrefix? w (w ++ ' ' :: c :: t) = some (' ' :: c :: t) :=
    Text.dropPrefix?_eq_some_iff.mpr rfl
  have hskip : Rule.skipSpaces (c :: t) = c :: t := by simp [Rule.skipSpaces, hspace]
  rw [Rule.operand, hdrop]
  show Rule.starts _ (Rule.skipSpaces (c :: t)) = true
  rw [hskip]
  show (!Rule.statementEnd c) = true
  rw [hc]
  rfl

theorem statement_opens {first : Char} {ahead : Text → Bool} {t : Text} (h : ahead t = true)
    (back : Text) : (Rule.statement first ahead).opens ⟨' ' :: back, first :: t⟩ = true := by
  have hfirst : (first == first) = true := beq_self_eq_true first
  have hspace : Rule.nonWord ' ' = true := by decide
  show ((first == first) && Rule.nonWord ' ' && ahead t && true) = true
  rw [hfirst, hspace, h]
  rfl

theorem dispatch_raise {c : Char} (hspace : c ≠ ' ') (hc : Rule.statementEnd c = false)
    (back t : Text) :
    RuleTable.dispatch standard (standard .function)
      ⟨' ' :: back, 'r' :: ("aise" ++ (' ' :: c :: t))⟩ = some .raiseStmt := by
  have hothers : ∀ j ∈ SpanKind.priority.takeWhile (· != .raiseStmt),
      j ∈ (standard .function).children → j ≠ .returnStmt →
      (standard j).current 'r' = false := by decide
  have hchild : SpanKind.raiseStmt ∈ (standard .function).children := by decide
  apply RuleTable.dispatch_of_first hchild
  · exact statement_opens (operand_word hspace hc) back
  · intro j hj hmem
    by_cases hreturn : j = .returnStmt
    · -- the same first letter, but not the same word
      rw [hreturn, Bool.eq_false_iff]
      intro hopens
      have hahead : Rule.operand Rule.directOperands "eturn" ("aise" ++ (' ' :: c :: t)) = true :=
        (Rule.opens_cons hopens).2.2
      simp only [String.reduceToList] at hahead
      exact absurd hahead Bool.false_ne_true
    · exact not_opens_of_current (hothers j hj hmem hreturn) _ _

/-- A statement opens at the head of its line. -/
theorem dispatch_statement {st : Statement} (h : st.Named) (back : Text) :
    RuleTable.dispatch standard (standard .function) ⟨' ' :: back, st.text ++ '\n' :: rest⟩ =
      some st.kind := by
  cases st with
  | returns =>
    have hform : Statement.text .returns = 'r' :: ("eturn" ++ [' ', 'x']) := by decide +kernel
    rw [hform, List.cons_append, List.append_assoc]
    apply RuleTable.dispatch_of_first (by decide)
    · exact statement_opens (operand_word (by decide) (by decide)) back
    · intro j hj hmem
      apply not_opens_of_current
      revert j
      decide
  | yields =>
    have hform : Statement.text .yields = 'y' :: ("ield" ++ [' ', 'x']) := by decide +kernel
    rw [hform, List.cons_append, List.append_assoc]
    apply RuleTable.dispatch_of_first (by decide)
    · exact statement_opens (operand_word (by decide) (by decide)) back
    · intro j hj hmem
      apply not_opens_of_current
      revert j
      decide
  | raises e =>
    obtain ⟨c, t, rfl⟩ := List.exists_cons_of_ne_nil h.ne_nil
    have hc := h.dotted c List.mem_cons_self
    have hspace : c ≠ ' ' := by
      rcases hc with hword | rfl
      · exact Text.ne_of_isAsciiWord hword (by decide)
      · decide
    have hform : Statement.text (.raises (c :: t)) ++ '\n' :: rest =
        'r' :: ("aise" ++ (' ' :: c :: (t ++ '\n' :: rest))) := by
      have hword : ("raise " : Text) = 'r' :: ("aise" ++ [' ']) := by decide +kernel
      exact congrArg (· ++ (c :: (t ++ '\n' :: rest))) hword
    rw [hform]
    exact dispatch_raise hspace (Statement.statementEnd_of_dotted
      (hc.imp_left Text.isWord_of_isAsciiWord)) back _

theorem dispatch_quotes (back t : Text) :
    RuleTable.dispatch standard (standard .function) ⟨' ' :: back, '"' :: '"' :: '"' :: t⟩ =
      some .doubleDocstring := by
  have hothers : ∀ j ∈ SpanKind.priority.takeWhile (· != .doubleDocstring),
      j ≠ .doubleString → j ≠ .formattedDoubleString → (standard j).current '"' = false := by
    decide
  apply RuleTable.dispatch_of_first (by decide) rfl
  intro j hj hmem
  by_cases hformatted : j = .formattedDoubleString
  · rw [hformatted]
    rfl
  · by_cases hdouble : j = .doubleString
    · rw [hdouble]
      rfl
    · exact not_opens_of_current (hothers j hj hdouble hformatted) _ _

theorem dispatch_def (t : Text) :
    RuleTable.dispatch standard (standard .file) ⟨[], 'd' :: 'e' :: 'f' :: ' ' :: t⟩ =
      some .function := by
  have hothers : ∀ j ∈ SpanKind.priority.takeWhile (· != .function),
      (standard j).current 'd' = false := by decide
  apply RuleTable.dispatch_of_first (by decide)
  · have hword : Rule.word "ef " ('e' :: 'f' :: ' ' :: t) = true := by
      simp only [String.reduceToList]
      rfl
    show (true && true && Rule.word "ef " ('e' :: 'f' :: ' ' :: t) && true) = true
    rw [hword]
    rfl
  · intro j hj hmem
    exact not_opens_of_current (hothers j hj) _ _

/-- The span of a statement: closed behind its text, with nothing but attributes of `self` in it. -/
structure Holds (st : Statement) (s : Span) : Prop where
  kind : s.kind = st.kind
  text : s.text = st.text
  terminated : s.unterminated = false
  children : ∀ d ∈ s.children, Statement.Closed d .selfAttribute

theorem exists_runs_pass (hkind : o.kind = .function) (hindent : o.indent = 0)
    (houtside : ¬ p.pos < p.resumeAt) :
    ∃ q, Runs standard options levels o p (body []) [] [] q := by
  obtain ⟨q, hfeed⟩ : ∃ q, Runs standard options levels o p ('\n' :: indent)
      (['p', 'a'] ++ ['s', 's', '\n']) [] q := exists_runs_feed rfl hkind hindent houtside
  obtain ⟨q₁, hpa⟩ : ∃ q₁, Runs standard options levels o q ['p', 'a'] (['s'] ++ ['s', '\n'])
      [] q₁ := exists_runs_idle rfl hkind hfeed.outside (by decide)
  have hbehind : ∀ {q : Progress} {d : Char} {back t : Text}, q.back = d :: back →
      isAsciiWord d = true → RuleTable.Quiet standard o.kind o.indent ⟨q.back, 's' :: t⟩ := by
    intro q d back t hback hd
    rw [hkind, hindent, hback]
    exact quiet_in_word hd _ _
  have hs₁ : Runs standard options levels o q₁ ['s'] (['s'] ++ ['\n']) [] _ :=
    .step hpa.outside (hbehind hpa.back (by decide))
  have hs₂ : Runs standard options levels o _ ['s'] (['\n'] ++ []) [] _ :=
    .step hs₁.outside (hbehind hs₁.back (by decide))
  have hlast : Runs standard options levels o _ ['\n'] [] [] _ :=
    .step hs₂.outside (by rw [hkind, hindent]; exact quiet_lastFeed rfl _)
  exact ⟨_, (((hfeed.trans hpa).trans hs₁).trans hs₂).trans hlast⟩

/-- The statements of the body are taken up one after the other, up to the end of the file. -/
theorem exists_runs_body (hexpired : options.Untimed) (hkind : o.kind = .function)
    (hindent : o.indent = 0) {sts : List Statement} (hsts : ∀ st ∈ sts, st.Named)
    (houtside : ¬ p.pos < p.resumeAt) :
    ∃ spans q, Runs standard options (levels + 2) o p (body sts) [] spans q ∧
      List.Forall₂ Holds sts spans := by
  induction sts generalizing p with
  | nil =>
    obtain ⟨q, hruns⟩ := exists_runs_pass hkind hindent houtside
    exact ⟨[], q, hruns, .nil⟩
  | cons st sts ih =>
    have hst := hsts st List.mem_cons_self
    obtain ⟨q, hfeed⟩ : ∃ q, Runs standard options (levels + 2) o p ('\n' :: indent)
        (st.text ++ body sts) [] q := exists_runs_feed rfl hkind hindent houtside
    have hopens : RuleTable.dispatch standard (standard o.kind) ⟨q.back, st.text ++ body sts⟩ =
        some st.kind := by
      rw [hkind, hfeed.back]
      exact dispatch_statement hst _
    have hinner : (o.inner q st.kind (st.text ++ body sts)).kind = st.kind :=
      Opening.inner_kind (by rw [hkind]; decide) _ _
    obtain ⟨inside, r, hr, hcovers, hinside⟩ :=
      Statement.scanSpan_statement hexpired hst hinner rfl
    obtain ⟨q', hstatement⟩ := exists_runs_child hfeed.outside st.text_ne_nil hopens hr hcovers
      (by rw [hkind]; rfl)
    obtain ⟨spans, q'', hrest, hspans⟩ := ih (fun d hd => hsts d (List.mem_cons_of_mem st hd))
      hstatement.outside
    rw [← List.append_nil (body sts)] at hstatement hfeed
    have hholds : Holds st ((o.inner q st.kind (st.text ++ body sts)).span st.text inside) :=
      ⟨hinner, rfl, rfl, hinside⟩
    refine ⟨_, q'', ?_, .cons hholds hspans⟩
    rw [body_cons, ← List.append_assoc]
    exact (hfeed.trans hstatement).trans hrest

theorem Named.statements {i : Interface} (h : i.Named) : ∀ st ∈ i.statements, st.Named := by
  intro st hst
  simp only [Interface.statements, List.mem_append, List.mem_map, List.mem_replicate] at hst
  rcases hst with ⟨-, rfl⟩ | ⟨-, rfl⟩ | ⟨e, he, rfl⟩
  · trivial
  · trivial
  · exact h.raises e he

/-! ## The tree -/

def listSpan (declared : Interface) (n : Nat) : Span :=
  ⟨.bracket, parameterList declared, 5, 5 + Text.byteLength (parameterList declared), n, false, []⟩

def docSpan (declared documented : Interface) (n : Nat) : Span :=
  ⟨.doubleDocstring, docText documented.fields, (listSpan declared 0).stop + 6,
    (listSpan declared 0).stop + 6 + Text.byteLength (docText documented.fields), n, false, []⟩

variable {declared documented : Interface}

theorem exists_runs_list (hexpired : options.Untimed) (hd : declared.Named)
    (hkind : o.kind = .function) (houtside : ¬ p.pos < p.resumeAt) (hpos : p.pos = 5) (v : Text) :
    ∃ n q, Runs standard options (levels + 1) o p (parameterList declared) v
      [listSpan declared n] q := by
  have hopens : RuleTable.dispatch standard (standard o.kind)
      ⟨p.back, parameterList declared ++ v⟩ = some .bracket := by
    rw [hkind]
    exact Delimiter.round.dispatch_opening (by decide) _ _
  have hplain : o.kind ≠ .decorator := by
    rw [hkind]
    decide
  have htext : (o.inner p .bracket (parameterList declared ++ v)).text =
      '(' :: (joinWith ", " declared.inputs ++ ')' :: v) := by
    show parameterList declared ++ v = _
    rw [parameterList, List.cons_append, List.append_assoc]
    rfl
  obtain ⟨r, hr, hcovers⟩ := scanSpan_list hexpired (joinWith_listed hd.inputs)
    (Opening.inner_kind hplain _ _) htext
  obtain ⟨q, hruns⟩ := exists_runs_child (w := parameterList declared) houtside
    (List.cons_ne_nil _ _) hopens hr hcovers (by rw [hkind]; rfl)
  have hspan : (o.inner p .bracket (parameterList declared ++ v)).span (parameterList declared) []
      = listSpan declared p.lineIndent := by
    rw [Opening.inner_span hplain, hpos]
    rfl
  rw [hspan] at hruns
  exact ⟨_, q, hruns⟩

theorem exists_runs_doc (hexpired : options.Untimed) (hf : documented.Named)
    (hkind : o.kind = .function) (houtside : ¬ p.pos < p.resumeAt)
    (hpos : p.pos = (listSpan declared 0).stop + 6) {back : Text} (hback : p.back = ' ' :: back)
    (v : Text) :
    ∃ n q, Runs standard options (levels + 1) o p (docText documented.fields) v
      [docSpan declared documented n] q := by
  have hopens : RuleTable.dispatch standard (standard o.kind)
      ⟨p.back, docText documented.fields ++ v⟩ = some .doubleDocstring := by
    rw [hkind, hback, docText_eq_quoted]
    exact dispatch_quotes _ _
  have hplain : o.kind ≠ .decorator := by
    rw [hkind]
    decide
  have htext : (o.inner p .doubleDocstring (docText documented.fields ++ v)).text =
      ['"', '"', '"'] ++ (docInner documented.fields ++ (['"', '"', '"'] ++ v)) := by
    show docText documented.fields ++ v = _
    rw [docText_eq_quoted, List.append_assoc, List.append_assoc]
  obtain ⟨r, hr, hcovers⟩ := scanSpan_quoted hexpired
    (not_mem_docInner hf.fields (by decide) (by decide))
    (not_mem_docInner hf.fields (by decide) (by decide)) (Opening.inner_kind hplain _ _) htext
  rw [← docText_eq_quoted] at hcovers
  have hne : docText documented.fields ≠ [] := by
    rw [docText_eq_quoted]
    exact List.cons_ne_nil _ _
  obtain ⟨q, hruns⟩ := exists_runs_child houtside hne hopens hr hcovers (by rw [hkind]; rfl)
  have hspan : (o.inner p .doubleDocstring (docText documented.fields ++ v)).span
      (docText documented.fields) [] = docSpan declared documented p.lineIndent := by
    rw [Opening.inner_span hplain, hpos]
    rfl
  rw [hspan] at hruns
  exact ⟨_, q, hruns⟩

/-- The colon of the header and the line feed with the indentation behind it. -/
theorem exists_runs_colon {v : Text} (hkind : o.kind = .function) (hindent : o.indent = 0)
    (houtside : ¬ p.pos < p.resumeAt) :
    ∃ q, Runs standard options levels o p ([':'] ++ ('\n' :: indent)) v [] q := by
  obtain ⟨q, hcolon⟩ : ∃ q, Runs standard options levels o p [':'] (('\n' :: indent) ++ v) [] q :=
    exists_runs_idle rfl hkind houtside (by decide)
  obtain ⟨q', hfeed⟩ := exists_runs_feed rfl hkind hindent hcolon.outside
  exact ⟨q', hcolon.trans hfeed⟩

/-- The function is scanned up to the end of the file. -/
theorem scanSpan_function (hexpired : options.Untimed) (hd : declared.Named)
    (hf : documented.Named) (hkind : o.kind = .function) (hstart : o.start = 0)
    (hindent : o.indent = 0) (htext : o.text = sketch declared documented) :
    ∃ n m spans r, scanSpan standard options (levels + 3) o = .ok r ∧
      o.Covers (sketch declared documented)
        (listSpan declared n :: docSpan declared documented m :: spans) r ∧
      List.Forall₂ Holds declared.statements spans := by
  have houtside : ¬ (o.begin ['d']).pos < (o.begin ['d']).resumeAt := Nat.not_lt_zero _
  obtain ⟨q₁, h₁⟩ : ∃ q₁, Runs standard options (levels + 2) o (o.begin ['d']) ['e', 'f', ' ', 'f']
      (parameterList declared ++ (([':'] ++ ('\n' :: indent)) ++
        (docText documented.fields ++ (body declared.statements ++ [])))) [] q₁ :=
    exists_runs_idle rfl hkind houtside (by decide)
  have hpos₁ : q₁.pos = 5 := by
    rw [h₁.pos]
    show o.start + 1 + 4 = 5
    rw [hstart]
  obtain ⟨n, q₂, h₂⟩ : ∃ n q₂, Runs standard options (levels + 2) o q₁ (parameterList declared)
      (([':'] ++ ('\n' :: indent)) ++ (docText documented.fields ++
        (body declared.statements ++ []))) [listSpan declared n] q₂ :=
    exists_runs_list hexpired hd hkind h₁.outside hpos₁ _
  obtain ⟨q₃, h₃⟩ : ∃ q₃, Runs standard options (levels + 2) o q₂ ([':'] ++ ('\n' :: indent))
      (docText documented.fields ++ (body declared.statements ++ [])) [] q₃ :=
    exists_runs_colon hkind hindent h₂.outside
  have hpos₃ : q₃.pos = (listSpan declared 0).stop + 6 := by
    rw [h₃.pos, h₂.pos, hpos₁]
    rfl
  obtain ⟨m, q₄, h₄⟩ : ∃ m q₄, Runs standard options (levels + 2) o q₃
      (docText documented.fields) (body declared.statements ++ [])
      [docSpan declared documented m] q₄ :=
    exists_runs_doc hexpired hf hkind h₃.outside hpos₃ h₃.back _
  obtain ⟨spans, q₅, h₅, hspans⟩ : ∃ spans q₅, Runs standard options (levels + 2) o q₄
      (body declared.statements) [] spans q₅ ∧ List.Forall₂ Holds declared.statements spans :=
    exists_runs_body hexpired hkind hindent (Named.statements hd) h₄.outside
  have hruns := (((h₁.trans h₂).trans h₃).trans h₄).trans h₅
  have hparts : o.text = ['d'] ++ ((((['e', 'f', ' ', 'f'] ++ parameterList declared) ++
      ([':'] ++ ('\n' :: indent))) ++ docText documented.fields) ++ body declared.statements) := by
    rw [htext, sketch_eq]
    simp only [List.append_assoc, List.singleton_append]
  obtain ⟨r, hr, hcovers⟩ := scanSpan_ends hexpired hparts (by rw [hkind]; rfl)
    (by rw [hkind]; rfl) hruns
  rw [← hparts, htext] at hcovers
  exact ⟨n, m, spans, r, hr, hcovers, hspans⟩

def functionSpan (declared documented : Interface) (n m : Nat) (spans : List Span) : Span :=
  ⟨.function, sketch declared documented, 0, Text.byteLength (sketch declared documented), 0, false,
    listSpan declared n :: docSpan declared documented m :: spans⟩

/-- The tree of a sketch. -/
def tree (declared documented : Interface) (n m : Nat) (spans : List Span) : Span :=
  ⟨.file, sketch declared documented, 0, Text.byteLength (sketch declared documented), 0, false,
    [functionSpan declared documented n m spans]⟩

theorem scan_sketch (hd : declared.Named) (hf : documented.Named) :
    ∃ n m spans, scan {} (sketch declared documented) = .ok (tree declared documented n m spans) ∧
      List.Forall₂ Holds declared.statements spans := by
  obtain ⟨n, m, spans, r, hr, hcovers, hspans⟩ : ∃ n m spans r,
      scanSpan standard {} 256 ⟨.function, 0, 0, sketch declared documented⟩ = .ok r ∧
      Opening.Covers ⟨.function, 0, 0, sketch declared documented⟩ (sketch declared documented)
        (listSpan declared n :: docSpan declared documented m :: spans) r ∧
      List.Forall₂ Holds declared.statements spans :=
    scanSpan_function (fun _ => rfl) hd hf rfl rfl rfl rfl
  have hne : sketch declared documented ≠ [] := by
    rw [sketch_eq]
    exact List.cons_ne_nil _ _
  have hopens : RuleTable.dispatch standard (standard .file) ⟨[], sketch declared documented⟩ =
      some .function := by
    rw [sketch_eq]
    exact dispatch_def _
  exact ⟨n, m, spans, scan_definition (fun _ => rfl) hne hopens ⟨r, hr, hcovers⟩, hspans⟩

end Sketch

end DocCoverage
