import DocCoverage.Proofs.Outline.Walk
import DocCoverage.Proofs.Sketch.Signature
import DocCoverage.Proofs.Text.Sorted

/-!
# The records of a sketch

A sketch has two records, for the file and for its function. They list what the function declares
and what its docstring documents, and both are documented exactly when the documented interface
covers the declared one.
-/
namespace DocCoverage

open Standard (indent line docText)

/-- One interface documents all that another declares: its names are among the documented ones, and
the numbers of returns and yields agree. -/
structure Interface.Covers (documented declared : Interface) : Prop where
  inputs : declared.inputs ⊆ documented.inputs
  returns : documented.returns = declared.returns
  yields : documented.yields = declared.yields
  raises : declared.raises ⊆ documented.raises

/-- A record lists what one interface declares, what another documents, and what is missing. -/
structure Record.Reports (r : Record) (declared documented : Interface) : Prop where
  inputs : Text.Lists r.inputs (· ∈ declared.inputs)
  foundInputs : Text.Lists r.foundInputs (· ∈ documented.inputs)
  missingInputs : Text.Lists r.missingInputs fun p => p ∈ declared.inputs ∧ p ∉ documented.inputs
  returns : r.returns = declared.returns
  foundReturns : r.foundReturns = documented.returns
  yields : r.yields = declared.yields
  foundYields : r.foundYields = documented.yields
  raises : Text.Lists r.raises (· ∈ declared.raises)
  foundRaises : Text.Lists r.foundRaises (· ∈ documented.raises)
  missingRaises : Text.Lists r.missingRaises fun e => e ∈ declared.raises ∧ e ∉ documented.raises

theorem Record.lists_missing (declared found : List Text) :
    Text.Lists (missing (Text.sorted declared) (Text.sorted found)) fun t =>
      t ∈ declared ∧ t ∉ found := by
  have hlists := (Text.lists_sorted declared).filter fun t => !(Text.sorted found).contains t
  refine ⟨hlists.increasing, fun t => (hlists.mem_iff t).trans ?_⟩
  rw [Bool.not_eq_true', List.contains_eq_mem, decide_eq_false_iff_not,
    (Text.lists_sorted found).mem_iff]

theorem Analysis.records_pair {a : Analysis} {o : Outline} (h : a.outline.children = [o])
    (ho : o.children = []) :
    a.records false = [Record.ofNode a.path a.tree.text a.warnings a.outline,
      Record.ofNode a.path a.tree.text a.warnings o] := by
  have hnodes : a.outline.descendants = [o] := by
    rw [Outline.descendants, h, Outline.walkAll_eq_flatMap, List.flatMap_singleton,
      Outline.walk_eq, Outline.descendants_eq_nil_iff.mpr ho]
  rw [a.records_eq, hnodes]
  rfl

namespace Sketch

variable {declared documented : Interface} {sts : List Statement} {spans : List Span} {n m : Nat}

theorem listSpan_stop : (listSpan declared n).stop =
    Text.byteLength (['d', 'e', 'f', ' ', 'f'] ++ parameterList declared) := by
  rw [Text.byteLength_append]
  rfl

/-- The function's own text in front of its parameter list. -/
theorem gap_header : (functionSpan declared documented n m spans).gap? 0
    (listSpan declared n).start = some ['d', 'e', 'f', ' ', 'f'] := by
  have htext : (functionSpan declared documented n m spans).text = [] ++
      (['d', 'e', 'f', ' ', 'f'] ++ (parameterList declared ++ (([':'] ++ ('\n' :: indent)) ++
        (docText documented.fields ++ body declared.statements)))) :=
    sketch_eq declared documented
  exact Span.gap?_eq_some htext rfl rfl

/-- The function's own text between its parameter list and its docstring. -/
theorem gap_colon : (functionSpan declared documented n m spans).gap? (listSpan declared n).stop
    (docSpan declared documented m).start = some ([':'] ++ ('\n' :: indent)) := by
  have htext : (functionSpan declared documented n m spans).text =
      (['d', 'e', 'f', ' ', 'f'] ++ parameterList declared) ++ (([':'] ++ ('\n' :: indent)) ++
        (docText documented.fields ++ body declared.statements)) := by
    show sketch declared documented = _
    rw [sketch_eq, List.append_assoc]
    rfl
  refine Span.gap?_eq_some htext ?_ rfl
  rw [listSpan_stop]
  exact (Nat.zero_add _).symm

theorem gap_blank : (functionSpan declared documented n m spans).gap?
    ((listSpan declared n).stop + 1) (docSpan declared documented m).start =
      some ('\n' :: indent) := by
  have htext : (functionSpan declared documented n m spans).text =
      ((['d', 'e', 'f', ' ', 'f'] ++ parameterList declared) ++ [':']) ++ (('\n' :: indent) ++
        (docText documented.fields ++ body declared.statements)) := by
    show sketch declared documented = _
    rw [sketch_eq, List.append_assoc, List.append_assoc, List.append_assoc]
    rfl
  refine Span.gap?_eq_some htext ?_ rfl
  rw [listSpan_stop, Text.byteLength_append _ [':']]
  exact (Nat.zero_add _).symm

theorem headerEnd_functionSpan :
    (functionSpan declared documented n m spans).headerEndFrom? 0
      (listSpan declared n :: docSpan declared documented m :: spans) =
      some (some ((listSpan declared n).stop + 1)) := by
  have hnone : Span.colonOffset ['d', 'e', 'f', ' ', 'f'] = none := by decide
  have hsome : Span.colonOffset ([':'] ++ ('\n' :: indent)) = some 0 := by decide
  simp only [Span.headerEndFrom?, gap_header, gap_colon, hnone, hsome, Option.bind_eq_bind,
    Option.bind_some, Nat.add_zero]
  rfl

/-- The docstring of the function is found behind its header. -/
theorem docstring_functionSpan :
    (functionSpan declared documented n m spans).docstring =
      some (docSpan declared documented m) := by
  have hbefore : (listSpan declared n).start < (listSpan declared n).stop + 1 := by
    show 5 < 5 + _ + 1
    omega
  have hbehind : ¬ (docSpan declared documented m).start < (listSpan declared n).stop + 1 := by
    show ¬ (listSpan declared n).stop + 6 < (listSpan declared n).stop + 1
    omega
  have hblanks : Text.isBlankText ('\n' :: indent) = true := by decide
  have hfound : (functionSpan declared documented n m spans).docstringFrom?
      ((listSpan declared n).stop + 1)
      (listSpan declared n :: docSpan declared documented m :: spans) =
      some (some (docSpan declared documented m)) := by
    rw [Span.docstringFrom?, if_pos hbefore, Span.docstringFrom?, if_neg hbehind, gap_blank]
    simp only [Option.bind_eq_bind, Option.bind_some, hblanks]
    rfl
  have hdoc : (functionSpan declared documented n m spans).docstring? =
      some (some (docSpan declared documented m)) := by
    show (Option.bind ((functionSpan declared documented n m spans).headerEndFrom? 0
      (listSpan declared n :: docSpan declared documented m :: spans)) fun _ => _) = _
    rw [headerEnd_functionSpan]
    exact hfound
  rw [Span.docstring, hdoc]
  rfl

/-- Nothing below the function is a definition or ran into the end of the file. -/
theorem descendants_functionSpan (h : List.Forall₂ Holds declared.statements spans) :
    ∀ d ∈ (functionSpan declared documented n m spans).descendants,
      d.unterminated = false ∧ d.kind.isDefinition = false := by
  have hleaf : ∀ {s d : Span}, s.children = [] → d ∈ s.preorder → d = s := by
    intro s d hs hd
    rcases Span.mem_preorder.mp hd with hd | ⟨c, hc, -⟩
    · exact hd
    · rw [hs] at hc
      cases hc
  intro d hd
  obtain ⟨s, hs, hd⟩ := Span.mem_descendants.mp hd
  rcases List.mem_cons.mp hs with rfl | hs
  · rw [hleaf rfl hd]
    exact ⟨rfl, rfl⟩
  rcases List.mem_cons.mp hs with rfl | hs
  · rw [hleaf rfl hd]
    exact ⟨rfl, rfl⟩
  · obtain ⟨st, hholds⟩ := Holds.exists_of_mem h hs
    rcases Span.mem_preorder.mp hd with rfl | ⟨c, hc, hd⟩
    · refine ⟨hholds.terminated, ?_⟩
      rw [hholds.kind]
      cases st <;> rfl
    · have hclosed := hholds.children c hc
      rw [hleaf hclosed.children hd, hclosed.kind]
      exact ⟨hclosed.terminated, rfl⟩

/-- The signature of a function with an interface. -/
def signature (i : Interface) : Signature := ⟨i.inputs, i.returns, i.yields, i.raises, []⟩

/-- The findings in a docstring for an interface. -/
def findings (declared documented : Interface) : Findings :=
  let f : Findings :=
    ⟨documented.inputs, documented.returns, documented.yields, documented.raises, true, false⟩
  { f with complete := Findings.covers .function (signature declared) f }

theorem complete_findings :
    (findings declared documented).complete = true ↔ documented.Covers declared := by
  simp only [findings, Findings.covers, signature, Signature.documentable, Bool.and_eq_true,
    List.all_eq_true, beq_iff_eq]
  constructor
  · rintro ⟨⟨⟨hinputs, hreturns⟩, hyields⟩, hraises⟩
    refine ⟨fun p hp => ?_, hreturns, hyields, fun e he => ?_⟩
    · exact List.contains_iff_mem.mp (hinputs p hp)
    · exact List.contains_iff_mem.mp (hraises e he)
  · intro h
    refine ⟨⟨⟨fun p hp => ?_, h.returns⟩, h.yields⟩, fun e he => ?_⟩
    · exact List.contains_iff_mem.mpr (h.inputs hp)
    · exact List.contains_iff_mem.mpr (h.raises he)

variable (declared) in
theorem ofDocstring_fields (hf : documented.Named) :
    Findings.ofDocstring .standard .function (signature declared) (docText documented.fields) =
      findings declared documented := by
  rw [Findings.ofDocstring, if_pos (Interface.accepts_fields hf), Interface.parameters_fields hf,
    Interface.returnCount_fields hf, Interface.yieldCount_fields hf,
    Interface.raisedNames_fields hf]
  rfl

def grammars : GrammarSet := ⟨.standard, .standard, .standard⟩

theorem isTainted_functionSpan (h : List.Forall₂ Holds declared.statements spans) :
    Outline.isTainted (functionSpan declared documented n m spans) = false := by
  rw [Outline.isTainted, List.any_eq_false]
  intro d hd
  rcases List.mem_cons.mp hd with rfl | hd
  · exact Bool.false_ne_true
  · rw [(descendants_functionSpan h d hd).1]
    exact Bool.false_ne_true

/-- The node of the function. -/
def functionNode (declared documented : Interface) (n m : Nat) (spans : List Span) : Outline :=
  Outline.node grammars (functionSpan declared documented n m spans).name
    (functionSpan declared documented n m spans) []

theorem functionNode_signature (hd : declared.Named)
    (h : List.Forall₂ Holds declared.statements spans) :
    (functionNode declared documented n m spans).signature = signature declared :=
  ofSpan_functionSpan hd h

theorem functionNode_findings (hd : declared.Named) (hf : documented.Named)
    (h : List.Forall₂ Holds declared.statements spans) :
    (functionNode declared documented n m spans).findings = findings declared documented := by
  have hfindings : (functionNode declared documented n m spans).findings =
      Findings.ofSpan grammars (Signature.ofSpan (functionSpan declared documented n m spans))
        (functionSpan declared documented n m spans) := by
    show (if Outline.isTainted _ then _ else _) = _
    rw [isTainted_functionSpan h]
    rfl
  rw [hfindings, ofSpan_functionSpan hd h, Findings.ofSpan, docstring_functionSpan]
  exact ofDocstring_fields declared hf

theorem functionNode_formatted (hd : declared.Named) (hf : documented.Named)
    (h : List.Forall₂ Holds declared.statements spans) :
    (functionNode declared documented n m spans).coverage.formatted = true := by
  show (functionNode declared documented n m spans).findings.matched = true
  rw [functionNode_findings hd hf h]
  rfl

theorem functionNode_complete (hd : declared.Named) (hf : documented.Named)
    (h : List.Forall₂ Holds declared.statements spans) :
    (functionNode declared documented n m spans).coverage.complete = true ↔
      documented.Covers declared := by
  have hcomplete : (functionNode declared documented n m spans).coverage.complete =
      ((functionNode declared documented n m spans).findings.complete && true) := rfl
  rw [hcomplete, Bool.and_true, functionNode_findings hd hf h]
  exact complete_findings

/-- The node of the file, above the node of the function. -/
def fileNode (name : Text) (declared documented : Interface) (n m : Nat) (spans : List Span) :
    Outline :=
  Outline.node grammars name (tree declared documented n m spans)
    [functionNode declared documented n m spans]

theorem fileNode_formatted (name : Text) :
    (fileNode name declared documented n m spans).coverage.formatted =
      (functionNode declared documented n m spans).coverage.formatted := Bool.and_true _

theorem fileNode_complete (name : Text) :
    (fileNode name declared documented n m spans).coverage.complete =
      (functionNode declared documented n m spans).coverage.complete := Bool.and_true _

/-- The outline of a sketch: the file and below it the function. -/
theorem ofSpan_tree (name : Text) (h : List.Forall₂ Holds declared.statements spans) :
    Outline.ofSpan grammars name (tree declared documented n m spans) =
      fileNode name declared documented n m spans := by
  have hnone : Outline.nested grammars (functionSpan declared documented n m spans) = [] :=
    Outline.nested_eq_nil fun d hd => (descendants_functionSpan h d hd).2
  have hnested : Outline.nested grammars (tree declared documented n m spans) =
      [functionNode declared documented n m spans] := by
    rw [Outline.nested_eq]
    show Outline.nestedIn grammars [functionSpan declared documented n m spans] = _
    rw [Outline.nestedIn, hnone]
    rfl
  rw [Outline.ofSpan, hnested]
  rfl

theorem analyze_eq (path : Text) (hd : declared.Named) (hf : documented.Named) :
    ∃ n m spans a, List.Forall₂ Holds declared.statements spans ∧
      analyze grammars {} path (sketch declared documented) = .ok a ∧
      a.outline = fileNode (baseName path) declared documented n m spans := by
  obtain ⟨n, m, spans, hscan, hspans⟩ := scan_sketch hd hf
  have hanalysis : analyze grammars {} path (sketch declared documented) =
      .ok ⟨path, tree declared documented n m spans,
        Outline.ofSpan grammars (baseName path) (tree declared documented n m spans),
        warningsOf (sketch declared documented) (tree declared documented n m spans)⟩ := by
    rw [analyze, hscan]
  exact ⟨n, m, spans, _, hspans, hanalysis, ofSpan_tree (baseName path) hspans⟩

theorem reports_functionNode (hd : declared.Named) (hf : documented.Named)
    (h : List.Forall₂ Holds declared.statements spans) (path source : Text)
    (warnings : List Warning) :
    (Record.ofNode path source warnings (functionNode declared documented n m spans)).Reports
      declared documented := by
  have hsignature : (functionNode declared documented n m spans).signature = signature declared :=
    functionNode_signature hd h
  have hfindings : (functionNode declared documented n m spans).findings =
      findings declared documented := functionNode_findings hd hf h
  constructor
  all_goals simp only [Record.ofNode, hsignature, hfindings]
  · exact Text.lists_sorted _
  · exact Text.lists_sorted _
  · exact Record.lists_missing _ _
  · rfl
  · rfl
  · rfl
  · rfl
  · exact Text.lists_sorted _
  · exact Text.lists_sorted _
  · exact Record.lists_missing _ _

end Sketch

open Sketch in
/-- The records of a sketch, with the standard grammar and the default limits. -/
theorem analyze_sketch (lib : Pattern.Library) (path : Text) {declared documented : Interface}
    (hd : declared.Named) (hf : documented.Named) :
    ∃ gs a file f, GrammarSet.compile lib TemplateSet.standard = .ok gs ∧
      analyze gs {} path (sketch declared documented) = .ok a ∧ a.records false = [file, f] ∧
      file.kind = .file ∧ f.kind = .function ∧ f.Reports declared documented ∧
      file.formattedMultiline = true ∧ f.formattedMultiline = true ∧
      (file.documented = true ↔ documented.Covers declared) ∧
      (f.documented = true ↔ documented.Covers declared) := by
  obtain ⟨n, m, spans, a, hspans, hanalysis, houtline⟩ := analyze_eq path hd hf
  have hformatted : (functionNode declared documented n m spans).coverage.formatted = true :=
    functionNode_formatted hd hf hspans
  have hcomplete : (functionNode declared documented n m spans).coverage.complete = true ↔
      documented.Covers declared := functionNode_complete hd hf hspans
  have hchildren : a.outline.children = [functionNode declared documented n m spans] := by
    rw [houtline]
    rfl
  refine ⟨grammars, a, _, _, GrammarSet.compile_standard lib, hanalysis,
    Analysis.records_pair hchildren rfl, ?_, rfl, reports_functionNode hd hf hspans _ _ _, ?_,
    hformatted, ?_, hcomplete⟩
  · show a.outline.kind = .file
    rw [houtline]
    rfl
  · show a.outline.coverage.formatted = true
    rw [houtline, fileNode_formatted]
    exact hformatted
  · show a.outline.coverage.complete = true ↔ _
    rw [houtline, fileNode_complete]
    exact hcomplete

/-- A parameter that is not documented, and an error that is an attribute of `self`. -/
theorem analyze_sketch_missing :
    Interface.Named ⟨["b", "a"], 1, 0, ["self.E"]⟩ ∧
    Interface.Named ⟨["a", "c"], 1, 0, ["E.x", "self.E"]⟩ ∧
    ∃ gs a file f, GrammarSet.compile .common TemplateSet.standard = .ok gs ∧
      analyze gs {} "m.py" ("def f(b, a):\n    \"\"\"\n    Summary\n\n    :param a: text\n" ++
        "    :param c: text\n    :return: text\n    :raise: E.x text\n" ++
        "    :raise: self.E text\n    \"\"\"\n    return x\n    raise self.E\n    pass\n") = .ok a ∧
      a.records false = [file, f] ∧ f.formattedMultiline = true ∧ f.returns = 1 ∧
      (("b" : Text) ∈ f.missingInputs ∧ ("a" : Text) ∉ f.missingInputs) ∧
      (("E.x" : Text) ∈ f.foundRaises ∧ ∀ e, e ∉ f.missingRaises) ∧ f.documented = false := by
  have hd : Interface.Named ⟨["b", "a"], 1, 0, ["self.E"]⟩ := by decide +kernel
  have hf : Interface.Named ⟨["a", "c"], 1, 0, ["E.x", "self.E"]⟩ := by decide +kernel
  obtain ⟨gs, a, file, f, hgs, ha, hrecords, -, -, hreports, -, hformatted, -, hdocumented⟩ :=
    analyze_sketch .common "m.py" hd hf
  have hsource : sketch ⟨["b", "a"], 1, 0, ["self.E"]⟩ ⟨["a", "c"], 1, 0, ["E.x", "self.E"]⟩ =
      ("def f(b, a):\n    \"\"\"\n    Summary\n\n    :param a: text\n" ++
        "    :param c: text\n    :return: text\n    :raise: E.x text\n" ++
        "    :raise: self.E text\n    \"\"\"\n    return x\n    raise self.E\n    pass\n") := by
    decide +kernel
  rw [hsource] at ha
  refine ⟨hd, hf, gs, a, file, f, hgs, ha, hrecords, hformatted, hreports.returns, ⟨?_, ?_⟩,
    ⟨?_, ?_⟩, ?_⟩
  · rw [hreports.missingInputs.mem_iff]
    decide +kernel
  · rw [hreports.missingInputs.mem_iff]
    decide +kernel
  · rw [hreports.foundRaises.mem_iff]
    decide +kernel
  · intro e he
    rw [hreports.missingRaises.mem_iff] at he
    obtain ⟨hin, hout⟩ := he
    exact hout (List.mem_cons_of_mem _ hin)
  · rw [Bool.eq_false_iff]
    intro hx
    have hb := (hdocumented.mp hx).inputs (List.mem_cons_self)
    revert hb
    decide +kernel

end DocCoverage
