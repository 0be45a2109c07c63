import DocCoverage.Proofs.Outline.Levels
import DocCoverage.Proofs.Outline.Warnings
import DocCoverage.Proofs.Text.Decimal
import DocCoverage.Report.Plain

/-!
# Whom a plain report blames

A plain report names the first reason that it finds in a record. That nested definitions are
incomplete is never looked up: it is the verdict that is left over when the record shows nothing
else. For the records of an analysis it is right, since whatever else makes a definition incomplete
shows in its record, and the nested definition that is to blame is reported further down.
-/
namespace DocCoverage

namespace Plain

variable {r : Record} {g : Text} {gs : List Text}

/-- The text begins with another character than the last verdict. -/
def BeginsApart (t : Text) : Prop := ∃ c rest, t = c :: rest ∧ c ≠ 'n'

theorem beginsApart_joinWith (sep : Text) (hne : gs ≠ []) (h : ∀ g ∈ gs, BeginsApart g) :
    BeginsApart (Text.joinWith sep gs) := by
  obtain ⟨g, gs, rfl⟩ := List.exists_cons_of_ne_nil hne
  obtain ⟨c, t, rfl, hc⟩ := h g List.mem_cons_self
  cases gs with
  | nil => exact ⟨c, _, rfl, hc⟩
  | cons => exact ⟨c, _, rfl, hc⟩

theorem beginsApart_missingNames {c : Char} {t : Text} {names : List Text} (hc : c ≠ 'n')
    (h : g ∈ missingNames (c :: t) names) : BeginsApart g := by
  unfold missingNames at h
  split at h
  · cases h
  · rw [List.mem_singleton.mp h]
    exact ⟨c, _, rfl, hc⟩

theorem beginsApart_miscounted {noun : Text} {found declared : Nat}
    (h : g ∈ miscounted noun found declared) : BeginsApart g := by
  unfold miscounted at h
  split at h
  · cases h
  · obtain ⟨c, t, hdigits, hdigit⟩ := Text.exists_ofNat found
    rw [List.mem_singleton.mp h, hdigits]
    refine ⟨c, _, rfl, ?_⟩
    rintro rfl
    cases hdigit

theorem beginsApart_gaps (h : g ∈ gaps r) : BeginsApart g := by
  simp only [gaps, List.mem_append] at h
  rcases h with (((hinputs | hattributes) | hreturns) | hyields) | hraises
  · exact beginsApart_missingNames (c := 'm') (by decide) hinputs
  · exact beginsApart_missingNames (c := 'm') (by decide) hattributes
  · exact beginsApart_miscounted hreturns
  · exact beginsApart_miscounted hyields
  · exact beginsApart_missingNames (c := 'm') (by decide) hraises

theorem gaps_eq_nil_iff : gaps r = [] ↔ r.missingInputs = [] ∧ r.missingParameters = [] ∧
    r.foundReturns = r.returns ∧ r.foundYields = r.yields ∧ r.missingRaises = [] := by
  have hnames : ∀ heading names, missingNames heading names = [] ↔ names = [] := by
    intro heading names
    cases names <;> simp [missingNames]
  have hcount : ∀ noun found declared, miscounted noun found declared = [] ↔ found = declared := by
    intro noun found declared
    by_cases h : found = declared <;> simp [miscounted, h]
  simp only [gaps, List.append_eq_nil_iff, hnames, hcount, and_assoc]

/-- The last verdict is left over when nothing in the record says what is wrong. -/
theorem verdict_eq_iff (hwarnings : ∀ w ∈ r.warnings, BeginsApart w) :
    verdict r = "nested definitions incomplete" ↔
      r.documented = false ∧ r.warnings = [] ∧ r.kind ≠ .file ∧ r.multilineComments = true ∧
        r.formattedMultiline = true ∧ gaps r = [] := by
  have hapart : ∀ {t : Text}, BeginsApart t → t ≠ "nested definitions incomplete" := by
    rintro t ⟨c, rest, rfl, hc⟩ heq
    exact hc (List.cons.inj heq).1
  unfold verdict
  split
  · rename_i hdocumented
    exact iff_of_false (by decide) fun h => absurd hdocumented (by simp [h.1])
  rename_i hdocumented
  split
  · rename_i hsome
    have hne : r.warnings ≠ [] := by simpa using hsome
    exact iff_of_false (hapart (beginsApart_joinWith _ hne hwarnings)) fun h => hne h.2.1
  rename_i hnone
  split
  · rename_i hfile
    exact iff_of_false (by decide) fun h => h.2.2.1 (eq_of_beq hfile)
  rename_i hfile
  split
  · rename_i hmultiline
    exact iff_of_false (by decide) fun h => absurd hmultiline (by simp [h.2.2.2.1])
  rename_i hmultiline
  split
  · rename_i hformatted
    exact iff_of_false (by decide) fun h => absurd hformatted (by simp [h.2.2.2.2.1])
  rename_i hformatted
  unfold describeGaps
  split
  · rename_i hgaps
    exact iff_of_true rfl ⟨by simpa using hdocumented, by simpa using hnone, by simpa using hfile,
      by simpa using hmultiline, by simpa using hformatted, by simpa using hgaps⟩
  · rename_i hgaps
    have hne : gaps r ≠ [] := by simpa using hgaps
    exact iff_of_false (hapart (beginsApart_joinWith _ hne fun _ => beginsApart_gaps))
      fun h => hne h.2.2.2.2.2

/-- The line of a record that blames nested definitions. -/
def nestedLine (r : Record) : Text :=
  r.path ++ ":" ++ Text.ofNat r.startLine ++ ": " ++ r.kind.tag ++ " " ++ r.name ++
    ": nested definitions incomplete\n"

theorem renderLine_eq_nestedLine_iff :
    renderLine r = nestedLine r ↔ verdict r = "nested definitions incomplete" := by
  have hline : nestedLine r = r.path ++ ":" ++ Text.ofNat r.startLine ++ ": " ++ r.kind.tag ++
      " " ++ r.name ++ ": " ++ "nested definitions incomplete" ++ "\n" := by
    simp only [nestedLine, List.append_assoc]
    rfl
  rw [hline, renderLine, List.append_cancel_right_eq, List.append_cancel_left_eq]

/-- The line of a record stands behind those of the records in front of it. -/
theorem render_append_cons (before after : List Record) (r : Record) :
    render (before ++ r :: after) =
      before.flatMap renderLine ++ renderLine r ++ after.flatMap renderLine ++
        totals (before ++ r :: after) := by
  simp only [render, List.flatMap_append, List.flatMap_cons, List.append_assoc]

theorem beginsApart_message (w : Warning) : BeginsApart w.message := ⟨'u', _, rfl, by decide⟩

end Plain

namespace Record

theorem exists_of_flatMap_eq {α β : Type} {f : α → List β} {xs : List α} {before after : List β}
    {y : β} (h : xs.flatMap f = before ++ y :: after) :
    ∃ x ∈ xs, ∃ front back rest, f x = front ++ y :: back ∧ after = back ++ rest := by
  induction xs generalizing before with
  | nil => simp at h
  | cons x xs ih =>
    rw [List.flatMap_cons] at h
    rcases List.append_eq_append_iff.mp h with ⟨front, rfl, hrest⟩ | ⟨back, hx, hrest⟩
    · obtain ⟨x', hx', hfound⟩ := ih hrest
      exact ⟨x', List.mem_cons_of_mem x hx', hfound⟩
    · cases back with
      | nil =>
        have hlater : xs.flatMap f = [] ++ y :: after := hrest.symm
        obtain ⟨x', hx', hfound⟩ := ih hlater
        exact ⟨x', List.mem_cons_of_mem x hx', hfound⟩
      | cons z back =>
        obtain ⟨rfl, rfl⟩ := List.cons.inj hrest
        exact ⟨x, List.mem_cons_self, before, back, _, hx, rfl⟩

/-- In a report a node is directly followed by what is reported below it. -/
theorem reported_append {collapse : Bool} {p o : Outline} {before after : List Outline}
    (h : reported collapse p = before ++ o :: after) :
    ∃ rest, o :: after = reported collapse o ++ rest := by
  induction p using Outline.tree_induction generalizing before after with
  | node p ih =>
    rw [reported_eq] at h
    cases before with
    | nil =>
      obtain ⟨rfl, rfl⟩ := List.cons.inj h
      exact ⟨[], by rw [reported_eq, List.append_nil]⟩
    | cons q before =>
      have hbelow := (List.cons.inj h).2
      split at hbelow
      · simp at hbelow
      · obtain ⟨c, hc, front, back, rest, hfound, rfl⟩ := exists_of_flatMap_eq hbelow
        obtain ⟨more, hmore⟩ := ih c hc hfound
        exact ⟨more ++ rest, by rw [← List.append_assoc, ← hmore, List.cons_append]⟩

theorem child_reported {collapse : Bool} {p o c : Outline} {before after : List Outline}
    (h : reported collapse p = before ++ o :: after) (hopen : o.coverage.complete = false)
    (hc : c ∈ o.children) : c ∈ after := by
  obtain ⟨rest, hrest⟩ := reported_append h
  rw [reported_eq, hopen, Bool.and_false, if_neg (by decide), List.cons_append] at hrest
  rw [(List.cons.inj hrest).2]
  have hself : c ∈ reported collapse c := by
    rw [reported_eq]
    exact List.mem_cons_self
  exact List.mem_append_left _ (List.mem_flatMap.mpr ⟨c, hc, hself⟩)

end Record

section

variable {gs : GrammarSet} {options : ScanOptions} {path source : Text} {a : Analysis}

theorem warnings_of_complete (h : analyze gs options path source = .ok a) {o : Outline}
    (ho : o ∈ a.outline.walk) (hcomplete : o.findings.complete = true) :
    (a.recordOf o).warnings = [] := by
  obtain ⟨s, hs, hreportable, hspan⟩ := exists_span_of_mem_walk h o ho
  obtain ⟨tree, htree, rfl⟩ := analyze_eq_ok_iff.mp h
  have hclosed := scan_reportable_closed htree hs hreportable
  have hclean : ¬o.tainted = true := by
    rw [hspan] at hcomplete ⊢
    intro htainted
    rw [Outline.findings_of_tainted htainted] at hcomplete
    cases hcomplete
  rw [hspan, Outline.tainted_iff hclosed, not_not, ← scan_filter_range htree hs hclosed] at hclean
  rw [hspan]
  simp only [Analysis.recordOf, Record.ofNode, warningsOf, List.filter_map, List.map_map,
    List.map_eq_nil_iff]
  exact hclean

theorem range_of_mem_children (h : analyze gs options path source = .ok a) {o c : Outline}
    (ho : o ∈ a.outline.walk) (hc : c ∈ o.children) :
    c.kind.isDefinition = true ∧ o.start ≤ c.start ∧ c.stop ≤ o.stop := by
  obtain ⟨s, hs, -, hspan⟩ := exists_span_of_mem_walk h o ho
  obtain ⟨tree, htree, rfl⟩ := analyze_eq_ok_iff.mp h
  have hplaced := Rule.standard_regular.scan_placed htree
  rw [hspan] at hc ⊢
  obtain ⟨t, ht, hdefinition, rfl⟩ := Outline.exists_definition_of_mem_nested hc
  have hbelow := fun e he => hplaced e (Span.preorder_trans he hs)
  have hmem := List.mem_cons_of_mem s ht
  exact ⟨hdefinition, Opening.Placed.start_le hbelow t hmem, Opening.Placed.stop_le hbelow t hmem⟩

/-- The last verdict falls on a definition exactly if its own docstring is complete and it counts as
undocumented. -/
theorem verdict_definition_iff (h : analyze gs options path source = .ok a) {o : Outline}
    (ho : o ∈ a.outline.walk) (hkind : o.kind ≠ .file) :
    Plain.verdict (a.recordOf o) = "nested definitions incomplete" ↔
      o.findings.complete = true ∧ (a.recordOf o).documented = false := by
  have hgraded := graded_of_analyze h o ho
  obtain ⟨s, -, hreportable, hspan⟩ := exists_span_of_mem_walk h o ho
  have hdefinition : s.kind.isDefinition = true := by
    rw [hspan] at hkind
    simp only [SpanKind.isReportable, Bool.or_eq_true, beq_iff_eq] at hreportable
    exact hreportable.resolve_left hkind
  have haccounted : o.findings.complete = true ↔ (a.recordOf o).Accounted := by
    rw [hspan]
    exact Outline.complete_findings_iff hdefinition _ _ _
  have hmessages : ∀ w ∈ (a.recordOf o).warnings, Plain.BeginsApart w := by
    intro w hw
    obtain ⟨warning, -, rfl⟩ := List.mem_map.mp hw
    exact Plain.beginsApart_message warning
  rw [Plain.verdict_eq_iff hmessages, Plain.gaps_eq_nil_iff]
  constructor
  · rintro ⟨hopen, -, -, -, hformatted, hinputs, hparameters, hreturns, hyields, hraises⟩
    exact ⟨haccounted.mpr
      ⟨hformatted, hinputs, hparameters, hraises, hreturns.symm, hyields.symm⟩, hopen⟩
  · rintro ⟨hcomplete, hopen⟩
    obtain ⟨hformatted, hinputs, hparameters, hraises, hreturns, hyields⟩ :=
      haccounted.mp hcomplete
    exact ⟨hopen, warnings_of_complete h ho hcomplete, hkind, hgraded.multiline hformatted,
      hformatted, hinputs, hparameters, hreturns.symm, hyields.symm, hraises⟩

/-- An undocumented definition whose own docstring is complete has an undocumented one directly
below it. -/
theorem exists_open_child (h : analyze gs options path source = .ok a) {o : Outline}
    (ho : o ∈ a.outline.walk) (hkind : o.kind ≠ .file) (hcomplete : o.findings.complete = true)
    (hopen : o.coverage.complete = false) : ∃ c ∈ o.children, c.coverage.complete = false := by
  obtain ⟨s, -, hreportable, hspan⟩ := exists_span_of_mem_walk h o ho
  rw [hspan] at hkind hcomplete hopen ⊢
  simp only [SpanKind.isReportable, Bool.or_eq_true, beq_iff_eq] at hreportable
  by_contra hnone
  have hall : ∀ c ∈ (Outline.ofSpan gs o.name s).children, c.coverage.complete = true := by
    intro c hc
    by_contra hc'
    exact hnone ⟨c, hc, Bool.eq_false_iff.mpr hc'⟩
  rw [(Outline.complete_definition (hreportable.resolve_left hkind)).mpr ⟨hcomplete, hall⟩] at hopen
  cases hopen

/-- In a full and in a collapsed report, the line that blames nested definitions stands where a
definition has a complete docstring of its own and still counts as undocumented. Behind the line
stands that of an undocumented definition nested in it. -/
theorem render_nested_incomplete (h : analyze gs options path source = .ok a) (collapse : Bool) :
    a.records collapse = (Record.reported collapse a.outline).map a.recordOf ∧
    ∀ before o after, Record.reported collapse a.outline = before ++ o :: after →
      (a.recordOf o).kind ≠ .file →
      Plain.render (a.records collapse) =
        (before.map a.recordOf).flatMap Plain.renderLine ++ Plain.renderLine (a.recordOf o) ++
          (after.map a.recordOf).flatMap Plain.renderLine ++ Plain.totals (a.records collapse) ∧
      (Plain.renderLine (a.recordOf o) = Plain.nestedLine (a.recordOf o) ↔
        o.findings.complete = true ∧ (a.recordOf o).documented = false) ∧
      (Plain.renderLine (a.recordOf o) = Plain.nestedLine (a.recordOf o) →
        ∃ d ∈ after, d ∈ o.children ∧ (a.recordOf d).kind.isDefinition = true ∧
          (a.recordOf o).start ≤ (a.recordOf d).start ∧
          (a.recordOf d).stop ≤ (a.recordOf o).stop ∧ (a.recordOf d).documented = false) := by
  have hrecords : a.records collapse = (Record.reported collapse a.outline).map a.recordOf := rfl
  refine ⟨hrecords, fun before o after hplace hkind => ?_⟩
  have ho : o ∈ a.outline.walk := Record.reported_subset collapse a.outline o
    (hplace ▸ List.mem_append_right before List.mem_cons_self)
  have hverdict := verdict_definition_iff h ho hkind
  rw [← Plain.renderLine_eq_nestedLine_iff] at hverdict
  refine ⟨?_, hverdict, fun hnested => ?_⟩
  · rw [hrecords, hplace, List.map_append, List.map_cons, Plain.render_append_cons]
  · obtain ⟨hcomplete, hopen⟩ := hverdict.mp hnested
    obtain ⟨c, hc, hculprit⟩ := exists_open_child h ho hkind hcomplete hopen
    obtain ⟨hdefinition, hfirst, hlast⟩ := range_of_mem_children h ho hc
    exact ⟨c, Record.child_reported hplace hopen hc, hc, hdefinition, hfirst, hlast, hculprit⟩

/-- The outer function is blamed for the inner one, also in a collapsed report. -/
theorem render_nested_incomplete_inner : ∃ a o after front back,
    analyze ⟨.standard, .standard, .standard⟩ {} "m.py" nestedSource = .ok a ∧
      Record.reported true a.outline = [a.outline] ++ o :: after ∧ (a.recordOf o).kind ≠ .file ∧
      Plain.render (a.records true) = front ++ Plain.nestedLine (a.recordOf o) ++ back ∧
      ∃ d ∈ after, (a.recordOf d).kind.isDefinition = true ∧
        (a.recordOf d).documented = false := by
  have htest : (analyze ⟨.standard, .standard, .standard⟩ {} "m.py" nestedSource).toOption.any
      (fun a => (Record.reported true a.outline)[1]?.any fun o =>
        o.kind == .function && o.findings.complete && !o.coverage.complete) = true := by
    decide +kernel
  obtain ⟨a, ha, htest⟩ := analyze_ok_of_any htest
  obtain ⟨o, hsecond, ho⟩ := (Option.any_eq_true ..).mp htest
  simp only [Bool.and_eq_true, beq_iff_eq, Bool.not_eq_true'] at ho
  obtain ⟨⟨hfunction, hcomplete⟩, hopen⟩ := ho
  obtain ⟨after, hplace⟩ : ∃ after, Record.reported true a.outline = [a.outline] ++ o :: after := by
    obtain ⟨below, hbelow⟩ : ∃ below, Record.reported true a.outline = a.outline :: below :=
      ⟨_, Record.reported_eq true a.outline⟩
    rw [hbelow] at hsecond ⊢
    cases below with
    | nil => cases hsecond
    | cons d after =>
      obtain rfl := Option.some.inj hsecond
      exact ⟨after, rfl⟩
  have hkind : (a.recordOf o).kind ≠ .file := by
    show o.kind ≠ .file
    rw [hfunction]
    decide
  obtain ⟨-, hlines⟩ := render_nested_incomplete ha true
  obtain ⟨hrender, hline, hculprit⟩ := hlines [a.outline] o after hplace hkind
  have hnested := hline.mpr ⟨hcomplete, hopen⟩
  obtain ⟨d, hd, -, hdefinition, -, -, hundocumented⟩ := hculprit hnested
  rw [hnested, List.append_assoc _ _ (Plain.totals _)] at hrender
  exact ⟨a, o, after, _, _, ha, hplace, hkind, hrender, d, hd, hdefinition, hundocumented⟩

end

end DocCoverage
