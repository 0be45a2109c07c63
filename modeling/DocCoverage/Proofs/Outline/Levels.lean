import DocCoverage.HashStore
import DocCoverage.Proofs.Outline.Coverage

/-!
# The levels of documentation form a chain

The four flags of a record come from different places: any span below, the direct children, the
docstring behind the header, and the findings of everything nested. Still each of them brings the
weaker ones with it, for definitions and for files, so that a remembered file that reached a level
reached every weaker level too.
-/
namespace DocCoverage

/-- Levels in the order of their declaration, the weakest first. -/
instance : LE Level := ⟨fun weak strong => weak.ctorIdx ≤ strong.ctorIdx⟩

instance (weak strong : Level) : Decidable (weak ≤ strong) :=
  inferInstanceAs (Decidable (weak.ctorIdx ≤ strong.ctorIdx))

namespace Coverage

/-- Every flag brings the weaker ones with it. -/
structure Graded (c : Coverage) : Prop where
  formatted : c.complete = true → c.formatted = true
  multiline : c.formatted = true → c.multiline = true
  basic : c.multiline = true → c.basic = true

/-- What is remembered of graded coverage reached with a level every weaker one. -/
theorem Graded.reached {c : Coverage} (h : c.Graded) {hash : Text} {weak strong : Level}
    (hle : weak ≤ strong) (hstrong : (HashEntry.ofCoverage hash c).reached strong = true) :
    (HashEntry.ofCoverage hash c).reached weak = true := by
  cases strong with
  | basicComments =>
    cases weak with
    | basicComments => exact hstrong
    | multilineComments | formattedMultiline | documented => exact absurd hle (by decide)
  | multilineComments =>
    cases weak with
    | basicComments => exact h.basic hstrong
    | multilineComments => exact hstrong
    | formattedMultiline | documented => exact absurd hle (by decide)
  | formattedMultiline =>
    cases weak with
    | basicComments => exact h.basic (h.multiline hstrong)
    | multilineComments => exact h.multiline hstrong
    | formattedMultiline => exact hstrong
    | documented => exact absurd hle (by decide)
  | documented =>
    cases weak with
    | basicComments => exact h.basic (h.multiline (h.formatted hstrong))
    | multilineComments => exact h.multiline (h.formatted hstrong)
    | formattedMultiline => exact h.formatted hstrong
    | documented => exact hstrong

theorem hasComment_of_hasDocstring {s : Span} (h : hasDocstring s = true) :
    hasComment s = true := by
  obtain ⟨c, hc, hdoc⟩ := List.any_eq_true.mp h
  refine List.any_eq_true.mpr ⟨c, Span.mem_descendants.mpr ⟨c, hc, c.self_mem_preorder⟩, ?_⟩
  rw [hdoc, Bool.or_true]

theorem hasComment_of_mem {d s : Span} (hd : d ∈ s.descendants) (h : hasComment d = true) :
    hasComment s = true := by
  obtain ⟨e, he, hkind⟩ := List.any_eq_true.mp h
  exact List.any_eq_true.mpr ⟨e, Span.descendants_trans he hd, hkind⟩

end Coverage

namespace Span

theorem docstringFrom?_mem {s d : Span} {cs : List Span} {first : Nat}
    (h : s.docstringFrom? first cs = some (some d)) : d ∈ cs ∧ d.kind.isDocstring = true := by
  induction cs generalizing first with
  | nil => simp [docstringFrom?] at h
  | cons c cs ih =>
    rw [docstringFrom?] at h
    split at h
    · exact (ih h).imp_left (List.mem_cons_of_mem c)
    · obtain ⟨t, -, h⟩ := Option.bind_eq_some_iff.mp h
      split at h
      · cases h
      · split at h
        · exact (ih h).imp_left (List.mem_cons_of_mem c)
        · split at h
          · rename_i hdoc
            obtain rfl : c = d := by simpa using h
            exact ⟨List.mem_cons_self, hdoc⟩
          · cases h

theorem docstring_mem {s d : Span} (h : s.docstring = some d) :
    d ∈ s.children ∧ d.kind.isDocstring = true := by
  unfold docstring at h
  cases hfound : s.docstring? with
  | none =>
    rw [hfound] at h
    cases h
  | some found =>
    obtain rfl : found = some d := by simpa [hfound] using h
    obtain ⟨first, -, hfirst⟩ := Option.bind_eq_some_iff.mp hfound
    cases first with
    | none => cases hfirst
    | some first => exact docstringFrom?_mem hfirst

end Span

/-- Where the grammar accepted something there is a docstring. -/
theorem Findings.hasDocstring_of_matched {gs : GrammarSet} {sig : Signature} {s : Span}
    (h : (ofSpan gs sig s).matched = true) : Coverage.hasDocstring s = true := by
  unfold ofSpan at h
  split at h
  · rename_i doc _ hdoc
    obtain ⟨hmem, hkind⟩ := Span.docstring_mem hdoc
    exact List.any_eq_true.mpr ⟨_, hmem, hkind⟩
  · cases h

namespace Outline

variable {gs : GrammarSet} {name : Text} {s : Span} {o d : Outline}

theorem hasDocstring_of_matched (h : (ofSpan gs name s).findings.matched = true) :
    Coverage.hasDocstring s = true := by
  have hfindings : (ofSpan gs name s).findings =
      if isTainted s then {} else Findings.ofSpan gs (Signature.ofSpan s) s := rfl
  rw [hfindings] at h
  split at h
  · cases h
  · exact Findings.hasDocstring_of_matched h

theorem graded_definition (h : s.kind.isDefinition = true) :
    (ofSpan gs name s).coverage.Graded := by
  constructor
  · intro hcomplete
    have hfindings := ((complete_definition h).mp hcomplete).1
    rw [complete_findings, Bool.and_eq_true] at hfindings
    rw [coverage_definition h]
    exact hfindings.1
  · rw [coverage_definition h]
    exact hasDocstring_of_matched
  · rw [coverage_definition h]
    exact Coverage.hasComment_of_hasDocstring

/-- The flags of a file follow from those of its outermost definitions, of which there is one. -/
theorem graded_file (h : s.kind = .file) : (ofSpan gs name s).coverage.Graded := by
  have hgraded : ∀ c ∈ (ofSpan gs name s).children, c.coverage.Graded := by
    intro c hc
    obtain ⟨t, -, hdefinition, rfl⟩ := exists_definition_of_mem_nested hc
    exact graded_definition hdefinition
  have hbasic : ∀ c ∈ (ofSpan gs name s).children, c.coverage.basic = true →
      Coverage.hasComment s = true := by
    intro c hc hcomment
    obtain ⟨t, ht, hdefinition, rfl⟩ := exists_definition_of_mem_nested hc
    rw [coverage_definition hdefinition] at hcomment
    exact Coverage.hasComment_of_mem ht hcomment
  rw [coverage_file h, Coverage.ofFile]
  split
  · exact ⟨fun _ => rfl, fun _ => rfl, fun _ => rfl⟩
  · rename_i hsome
    simp only [List.isEmpty_map, List.isEmpty_iff] at hsome
    obtain ⟨c, hc⟩ := List.exists_mem_of_ne_nil _ hsome
    constructor
    · simp only [List.all_map, List.all_eq_true, Function.comp_apply]
      exact fun hall c hc => (hgraded c hc).formatted (hall c hc)
    · simp only [List.all_map, List.all_eq_true, Function.comp_apply, Bool.or_eq_true]
      exact fun hall => Or.inr fun c hc => (hgraded c hc).multiline (hall c hc)
    · simp only [List.all_map, List.all_eq_true, Function.comp_apply, Bool.or_eq_true]
      rintro (hdoc | hall)
      · exact Coverage.hasComment_of_hasDocstring hdoc
      · exact hbasic c hc ((hgraded c hc).basic (hall c hc))

end Outline

section

variable {gs : GrammarSet} {options : ScanOptions} {path source : Text} {a : Analysis}

theorem graded_of_analyze (h : analyze gs options path source = .ok a) :
    ∀ o ∈ a.outline.walk, o.coverage.Graded := by
  obtain ⟨houtline, hfile⟩ := analyze_outline h
  intro o ho
  rw [Outline.walk_eq, List.mem_cons, houtline] at ho
  rcases ho with rfl | ho
  · exact Outline.graded_file hfile
  · obtain ⟨s, -, hdefinition, rfl⟩ := Outline.exists_definition_of_mem_descendants ho
    exact Outline.graded_definition hdefinition

/-- In every record each level of documentation brings the weaker ones with it, and so it does in
what is remembered of an analysis. -/
theorem levels_chain (h : analyze gs options path source = .ok a) :
    (∀ collapse, ∀ r ∈ a.records collapse,
      (r.documented = true → r.formattedMultiline = true) ∧
      (r.formattedMultiline = true → r.multilineComments = true) ∧
      (r.multilineComments = true → r.basicComments = true)) ∧
    ∀ (hash : Text) (weak strong : Level), weak ≤ strong →
      (HashEntry.ofCoverage hash a.coverage).reached strong = true →
      (HashEntry.ofCoverage hash a.coverage).reached weak = true := by
  have hgraded := graded_of_analyze h
  constructor
  · intro collapse r hr
    obtain ⟨o, ho, rfl⟩ := List.mem_map.mp hr
    have ho := hgraded o (Record.reported_subset collapse a.outline o ho)
    exact ⟨ho.formatted, ho.multiline, ho.basic⟩
  · intro hash weak strong hle hstrong
    have hroot : a.outline ∈ a.outline.walk := by
      rw [Outline.walk_eq]
      exact List.mem_cons_self
    exact (hgraded a.outline hroot).reached hle hstrong

/-- The file around an undocumented function reaches the third level, so the first two as well. -/
theorem levels_chain_nested : ∃ a,
    analyze ⟨.standard, .standard, .standard⟩ {} "m.py" nestedSource = .ok a ∧
      (HashEntry.ofCoverage [] a.coverage).reached .documented = false ∧
      (HashEntry.ofCoverage [] a.coverage).reached .formattedMultiline = true ∧
      (HashEntry.ofCoverage [] a.coverage).reached .multilineComments = true ∧
      (HashEntry.ofCoverage [] a.coverage).reached .basicComments = true ∧
      ∃ r ∈ a.records true, r.formattedMultiline = true ∧ r.documented = false ∧
        r.basicComments = true := by
  have htest : (analyze ⟨.standard, .standard, .standard⟩ {} "m.py" nestedSource).toOption.any
      (fun a => !a.coverage.complete && a.coverage.formatted &&
        (a.records true).any fun r => r.formattedMultiline && !r.documented) = true := by
    decide +kernel
  obtain ⟨a, ha, htest⟩ := analyze_ok_of_any htest
  simp only [Bool.and_eq_true, Bool.not_eq_true', List.any_eq_true] at htest
  obtain ⟨⟨hdocumented, hformatted⟩, r, hr, hflag, hincomplete⟩ := htest
  obtain ⟨hrecords, hentry⟩ := levels_chain ha
  have hweaker := fun weak hle => hentry [] weak .formattedMultiline hle hformatted
  obtain ⟨-, hmultiline, hbasic⟩ := hrecords true r hr
  exact ⟨a, ha, hdocumented, hformatted, hweaker _ (by decide), hweaker _ (by decide), r, hr, hflag,
    hincomplete, hbasic (hmultiline hflag)⟩

end

end DocCoverage
