import DocCoverage.Proofs.Sketch.Code

/-!
# Statements of one line

How the scanner reads a return, a yield and a raise statement that ends with its line. The name
behind `raise` may hold an attribute of `self`, which is then a span inside the statement; nothing
else opens in a statement.
-/
namespace DocCoverage

open Text (isAsciiWord)

/-- A statement that ends with its line. -/
inductive Statement where
  | returns
  | yields
  | raises (name : Text)

namespace Statement

open Rule (standard)

def text : Statement → Text
  | returns => "return x"
  | yields => "yield x"
  | raises name => "raise " ++ name

def kind : Statement → SpanKind
  | returns => .returnStmt
  | yields => .yieldStmt
  | raises _ => .raiseStmt

def Named : Statement → Prop
  | raises name => name.AsciiDotted
  | _ => True

theorem text_ne_nil (st : Statement) : st.text ≠ [] := by
  unfold text
  split
  all_goals simp

/-- A span without children that is closed. -/
structure Closed (s : Span) (kind : SpanKind) : Prop where
  kind : s.kind = kind
  terminated : s.unterminated = false
  children : s.children = []

variable {options : ScanOptions} {levels : Nat} {o : Opening} {rest : Text}

/-- A place in a statement where nothing opens and the statement does not end. -/
theorem quiet_of_idle {kind : SpanKind} {first : Char} {ahead : Text → Bool}
    (hrule : standard kind = Rule.statement first ahead) {c : Char} {back t : Text} {indent : Nat}
    (hc : Rule.statementEnd c = false)
    (hidle : RuleTable.dispatch standard (standard kind) ⟨back, c :: t⟩ = none) :
    RuleTable.Quiet standard kind indent ⟨back, c :: t⟩ := by
  refine ⟨hidle, ?_⟩
  rw [hrule]
  exact hc

theorem statementEnd_of_dotted {c : Char} (hc : Text.InName c) : Rule.statementEnd c = false := by
  rcases hc with hword | rfl
  · have hends : ∀ d, Rule.statementEnd d = true → Text.isWord d = false := by
      intro d hd
      simp only [Rule.statementEnd, Bool.or_eq_true, beq_iff_eq] at hd
      rcases hd with (rfl | rfl) | rfl
      all_goals decide
    rw [Bool.eq_false_iff]
    intro hend
    rw [hends c hend] at hword
    cases hword
  · decide

section Rule

variable {kind : SpanKind} {first : Char} {ahead : Text → Bool}
  (hrule : standard kind = Rule.statement first ahead)

/-- A character at which nothing happens in a statement. -/
def isPlain (c : Char) : Bool :=
  !Rule.statementEnd c && Rule.statementChildren.all fun k => !(standard k).current c

include hrule

theorem exists_runs_plain (hkind : o.kind = kind) {p : Progress} {u v : Text}
    (houtside : ¬ p.pos < p.resumeAt) (hu : u.all isPlain = true) :
    ∃ q, Runs standard options levels o p u v [] q := by
  apply exists_runs_chars houtside
  intro c hc back t
  have hplain := List.all_eq_true.mp hu c hc
  rw [isPlain, Bool.and_eq_true, Bool.not_eq_true'] at hplain
  rw [hkind]
  apply quiet_of_idle hrule hplain.1
  apply RuleTable.dispatch_of_dull
  rw [RuleTable.dull, hrule]
  exact hplain.2

theorem scanSpan_of_runs (hexpired : options.Untimed) (hkind : o.kind = kind) {c : Char}
    {u : Text} {spans : List Span} {q : Progress} (htext : o.text = c :: (u ++ '\n' :: rest))
    (hc : c.utf8Size = 1)
    (hruns : Runs standard options levels o (o.begin [c]) u ('\n' :: rest) spans q) :
    ∃ r, scanSpan standard options (levels + 1) o = .ok r ∧ o.Covers (c :: u) spans r := by
  have hrule' : standard o.kind = Rule.statement first ahead := by rw [hkind, hrule]
  have hparts : o.text = [c] ++ (u ++ ([] ++ '\n' :: rest)) := htext
  have hopened : Text.byteLength [c] = (standard o.kind).opener o.text := by
    rw [Text.byteLength_cons, hc, hrule']
    rfl
  have hdull : RuleTable.dull standard o.kind '\n' = true := by
    rw [RuleTable.dull, hrule']
    show (Rule.statementChildren.all fun k => !(standard k).current '\n') = true
    decide
  obtain ⟨r, hr, hcovers⟩ := scanSpan_closes hexpired hparts hopened (by rw [hrule']; rfl) rfl
    hruns (RuleTable.dispatch_of_dull hdull _ _) (by rw [hrule']; rfl)
    (Rule.standard_regular.resume_le _)
  rw [List.append_nil] at hcovers
  exact ⟨r, hr, hcovers⟩

end Rule

/-- A statement at the front of a text is scanned up to the end of its line, with nothing but
attributes of `self` inside. -/
theorem scanSpan_statement (hexpired : options.Untimed) {st : Statement} (h : st.Named)
    (hkind : o.kind = st.kind) (htext : o.text = st.text ++ '\n' :: rest) :
    ∃ spans r, scanSpan standard options (levels + 2) o = .ok r ∧ o.Covers st.text spans r ∧
      ∀ s ∈ spans, Closed s .selfAttribute := by
  have hbegin : ∀ t, ¬ (o.begin t).pos < (o.begin t).resumeAt := fun t => Nat.not_lt_zero _
  cases st with
  | returns =>
    have hform : text returns = 'r' :: ['e', 't', 'u', 'r', 'n', ' ', 'x'] := by decide +kernel
    rw [hform] at htext ⊢
    obtain ⟨q, hruns⟩ : ∃ q, Runs standard options (levels + 1) o (o.begin ['r'])
        ['e', 't', 'u', 'r', 'n', ' ', 'x'] ('\n' :: rest) [] q :=
      exists_runs_plain rfl hkind (hbegin ['r']) (by decide)
    obtain ⟨r, hr, hcovers⟩ := scanSpan_of_runs rfl hexpired hkind htext rfl hruns
    exact ⟨[], r, hr, hcovers, by simp⟩
  | yields =>
    have hform : text yields = 'y' :: ['i', 'e', 'l', 'd', ' ', 'x'] := by decide +kernel
    rw [hform] at htext ⊢
    obtain ⟨q, hruns⟩ : ∃ q, Runs standard options (levels + 1) o (o.begin ['y'])
        ['i', 'e', 'l', 'd', ' ', 'x'] ('\n' :: rest) [] q :=
      exists_runs_plain rfl hkind (hbegin ['y']) (by decide)
    obtain ⟨r, hr, hcovers⟩ := scanSpan_of_runs rfl hexpired hkind htext rfl hruns
    exact ⟨[], r, hr, hcovers, by simp⟩
  | raises e =>
    have hkind : o.kind = .raiseStmt := hkind
    have hform : text (raises e) = 'r' :: (((['a', 'i'] ++ ['s']) ++ ['e', ' ']) ++ e) := by
      have hword : ("raise " : Text) = ['r', 'a', 'i', 's', 'e', ' '] := by decide +kernel
      exact congrArg (· ++ e) hword
    rw [hform] at htext ⊢
    obtain ⟨q, hfirst⟩ : ∃ q, Runs standard options (levels + 1) o (o.begin ['r']) ['a', 'i']
        (['s'] ++ (['e', ' '] ++ (e ++ '\n' :: rest))) [] q :=
      exists_runs_plain rfl hkind (hbegin ['r']) (by decide)
    -- behind the `i` no attribute opens
    have hquiet : RuleTable.Quiet standard o.kind o.indent
        ⟨q.back, 's' :: (['e', ' '] ++ (e ++ '\n' :: rest))⟩ := by
      rw [hfirst.back, hkind]
      apply quiet_of_idle rfl rfl
      apply Rule.dispatch_code_eq_none (by decide) (by decide)
      exact Rule.selfAttribute_opens_in_word (by decide) _ _
    have hsecond : Runs standard options (levels + 1) o q ['s']
        (['e', ' '] ++ (e ++ '\n' :: rest)) [] _ := .step hfirst.outside hquiet
    obtain ⟨q', hthird⟩ : ∃ q', Runs standard options (levels + 1) o _ ['e', ' ']
        (e ++ '\n' :: rest) [] q' := exists_runs_plain rfl hkind hsecond.outside (by decide)
    have hdotted : ∀ c ∈ e, Text.InName c :=
      fun c hc => (h.dotted c hc).imp_left Text.isWord_of_isAsciiWord
    have hstays : ∀ c, Text.InName c → ∀ back t,
        (standard o.kind).ending.closes o.indent ⟨back, c :: t⟩ = false := by
      intro c hc back t
      rw [hkind]
      exact statementEnd_of_dotted hc
    obtain ⟨spans, q'', -, hname, hspans, -⟩ := exists_runs_name levels rest
      hexpired (by rw [hkind]; decide) hstays hthird.outside hdotted (d := '\n') (by decide)
    have hruns := ((hfirst.trans hsecond).trans hthird).trans hname
    obtain ⟨r, hr, hcovers⟩ := scanSpan_of_runs rfl hexpired hkind htext rfl hruns
    refine ⟨spans, r, hr, hcovers, fun s hs => ?_⟩
    obtain ⟨hkind, hterminated, hchildren⟩ := hspans s hs
    exact ⟨hkind, hterminated, hchildren⟩

end Statement

end DocCoverage
