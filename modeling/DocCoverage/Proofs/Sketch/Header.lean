import DocCoverage.Proofs.Sketch.Signature

/-!
# Functions with a parameter list

A function of two lines, with any text between the brackets of its parameter list. Once it is known
how the scanner passes over that text and what is left of it when the spans in it are cut out, the
declared parameters are the names in the pieces between the commas of what is left.
-/
namespace DocCoverage

open Rule (standard)

/-- A function with the given text between the brackets of its parameter list. -/
def headed (list : Text) : Text := "def f(" ++ list ++ "):\n    pass\n"

namespace Sketch

/-- What is left of a parameter list holds the given names. -/
def Declares (names : List Text) (w : Text) : Prop :=
  (Text.splitOn ',' w).filterMap Signature.parameterName = names

variable {options : ScanOptions} {levels : Nat} {o : Opening} {list w v : Text} {names : List Text}

theorem headed_eq (list : Text) : headed list =
    'd' :: (['e', 'f', ' ', 'f'] ++ ('(' :: (list ++ [')']) ++ ([':'] ++ body []))) := by
  unfold headed body Standard.line Standard.indent
  simp

theorem ownText_list {n indent : Nat} {spans : List Span} (h : Kept (n + 1) list spans w) :
    Span.ownText ⟨.bracket, '(' :: (list ++ [')']), n,
      n + Text.byteLength ('(' :: (list ++ [')'])), indent, false, spans⟩ =
      '(' :: (w ++ [')']) := by
  have hlist : Kept n (['('] ++ (list ++ [')'])) ([] ++ (spans ++ [])) (['('] ++ (w ++ [')'])) :=
    .append (.plain _ _) (.append h (.plain _ _))
  rw [List.nil_append, List.append_nil] at hlist
  exact Span.ownText_of_kept hlist rfl

theorem exists_runs_listed (hexpired : options.Untimed)
    (h : Passable options levels list (Declares names)) (hkind : o.kind = .function) {p : Progress}
    (houtside : ¬ p.pos < p.resumeAt) :
    ∃ s q w, Runs standard options (levels + 1) o p ('(' :: (list ++ [')'])) v [s] q ∧
      s.kind = .bracket ∧ s.ownText = '(' :: (w ++ [')']) ∧ Declares names w := by
  have hplain : o.kind ≠ .decorator := by
    rw [hkind]
    decide
  have hopens : RuleTable.dispatch standard (standard o.kind)
      ⟨p.back, '(' :: (list ++ [')']) ++ v⟩ = some .bracket := by
    rw [hkind]
    exact Delimiter.round.dispatch_opening (by decide) _ _
  obtain ⟨w, spans, r, hr, hcovers, hkept, hw⟩ := h.exists_scanSpan (b := .round) hexpired
    (o := o.inner p .bracket ('(' :: (list ++ [')']) ++ v)) (Opening.inner_kind hplain _ _) rfl
  obtain ⟨q, hruns⟩ := exists_runs_child houtside (List.cons_ne_nil _ _) hopens hr hcovers
    (by rw [hkind]; rfl)
  rw [Opening.inner_span hplain] at hruns
  exact ⟨_, q, w, hruns, rfl, ownText_list hkept, hw⟩

theorem inputs_of_list {s d : Span} (hs : s.kind = .function) (hchildren : s.children = [d])
    (hkind : d.kind = .bracket) (hown : d.ownText = '(' :: (w ++ [')'])) (hw : Declares names w) :
    (Signature.ofSpan s).inputs = names := by
  have hparameters : (Signature.ofSpan s).inputs = Signature.parameters s := by
    rw [Signature.ofSpan, hs]
    rfl
  have hfind : s.children.find? (·.kind == .bracket) = some d := by
    rw [hchildren, List.find?_cons_of_pos (by rw [hkind]; rfl)]
  rw [Declares, ← Signature.parameterItems_eq, ← hown] at hw
  rw [hparameters, Signature.parameters, hfind, hs, ← hw]
  exact List.filter_eq_self.mpr fun _ _ => rfl

/-- The function is found, and its parameters are the names in what is left of its list. -/
theorem exists_scan_headed (hexpired : options.Untimed)
    (hdepth : options.maxDepth = levels + 2)
    (h : Passable options levels list (Declares names)) :
    ∃ tree s, scan options (headed list) = .ok tree ∧ tree.children = [s] ∧ s.kind = .function ∧
      (Signature.ofSpan s).inputs = names := by
  let o : Opening := ⟨.function, 0, 0, headed list⟩
  have hfunction : SpanKind.isDefinition .function = true := rfl
  obtain ⟨q₁, h₁⟩ : ∃ q₁, Runs standard options (levels + 1) o (o.begin ['d']) ['e', 'f', ' ', 'f']
      ('(' :: (list ++ [')']) ++ ([':'] ++ (body [] ++ []))) [] q₁ :=
    exists_runs_idle hfunction rfl (Nat.not_lt_zero _) (by decide)
  obtain ⟨d, q₂, w, h₂, hkind, hown, hw⟩ := exists_runs_listed (v := [':'] ++ (body [] ++ []))
    hexpired h (o := o) rfl h₁.outside
  obtain ⟨q₃, h₃⟩ : ∃ q₃, Runs standard options (levels + 1) o q₂ [':'] (body [] ++ []) [] q₃ :=
    exists_runs_idle hfunction rfl h₂.outside (by decide)
  obtain ⟨q₄, h₄⟩ : ∃ q₄, Runs standard options (levels + 1) o q₃ (body []) [] [] q₄ :=
    exists_runs_pass rfl rfl h₃.outside
  have hruns := ((h₁.trans h₂).trans h₃).trans h₄
  have hparts : o.text = ['d'] ++ ((((['e', 'f', ' ', 'f'] ++ '(' :: (list ++ [')'])) ++ [':']) ++
      body [])) := by
    show headed list = _
    rw [headed_eq]
    simp
  obtain ⟨r, hr, hcovers⟩ := scanSpan_ends hexpired hparts rfl rfl hruns
  rw [← hparts] at hcovers
  have hopens : RuleTable.dispatch standard (standard .file) ⟨[], headed list⟩ =
      some .function := by
    rw [headed_eq]
    exact dispatch_def _
  have hne : headed list ≠ [] := by
    rw [headed_eq]
    exact List.cons_ne_nil _ _
  exact ⟨_, _, scan_definition hexpired hne hopens ⟨r, by rw [hdepth]; exact hr, hcovers⟩, rfl, rfl,
    inputs_of_list rfl rfl hkind hown hw⟩

end Sketch

end DocCoverage
