import DocCoverage.Analysis

/-!
# Report records

A report has one record for the file and one for each definition, every record before those of the
definitions nested in it. Names are listed in increasing order without repetition.
-/
namespace DocCoverage

structure Record where
  path : Text
  name : Text
  kind : SpanKind
  start : Nat := 0
  stop : Nat := 0
  startLine : Nat := 0
  endLine : Nat := 0
  inputs : List Text := []
  foundInputs : List Text := []
  missingInputs : List Text := []
  returns : Nat := 0
  foundReturns : Nat := 0
  yields : Nat := 0
  foundYields : Nat := 0
  raises : List Text := []
  foundRaises : List Text := []
  missingRaises : List Text := []
  parameters : List Text := []
  foundParameters : List Text := []
  missingParameters : List Text := []
  basicComments : Bool := false
  multilineComments : Bool := false
  formattedMultiline : Bool := false
  documented : Bool := false
  warnings : List Text := []
  deriving DecidableEq, Repr

namespace Record

/-- The declared names that were not found. -/
def missing (declared found : List Text) : List Text :=
  declared.filter fun name => !found.contains name

def ofNode (path source : Text) (warnings : List Warning) (o : Outline) : Record :=
  let inputs := Text.sorted o.signature.inputs
  let foundInputs := Text.sorted o.findings.inputs
  let raises := Text.sorted o.signature.raises
  let foundRaises := Text.sorted o.findings.raises
  let parameters := Text.sorted o.signature.attributes
  let foundParameters := if o.kind == .classDef then foundInputs else []
  { path := path
    name := o.name
    kind := o.kind
    start := o.start
    stop := o.stop
    startLine := lineOf source o.start
    endLine := lineOf source (max (o.stop - 1) o.start)
    inputs := inputs
    foundInputs := foundInputs
    missingInputs := missing inputs foundInputs
    returns := o.signature.returns
    foundReturns := o.findings.returns
    yields := o.signature.yields
    foundYields := o.findings.yields
    raises := raises
    foundRaises := foundRaises
    missingRaises := missing raises foundRaises
    parameters := parameters
    foundParameters := foundParameters
    missingParameters := missing parameters foundParameters
    basicComments := o.coverage.basic
    multilineComments := o.coverage.multiline
    formattedMultiline := o.coverage.formatted
    documented := o.coverage.complete
    warnings :=
      (warnings.filter fun w => o.start ≤ w.start && w.start < o.stop).map Warning.message }

/-- The record of a file that could not be analysed; the reason is its only warning. -/
def unanalysed (path reason : Text) : Record :=
  { path := path, name := baseName path, kind := .file, warnings := [reason] }

mutual

/-- The nodes that get a record. With `collapse`, nothing below a complete node does. -/
def reported (collapse : Bool) : Outline → List Outline
  | ⟨kind, name, start, stop, signature, findings, coverage, tainted, children⟩ =>
    ⟨kind, name, start, stop, signature, findings, coverage, tainted, children⟩ ::
      (if collapse && coverage.complete then [] else reportedAll collapse children)

def reportedAll (collapse : Bool) : List Outline → List Outline
  | [] => []
  | o :: rest => reported collapse o ++ reportedAll collapse rest

end

end Record

def Analysis.records (a : Analysis) (collapse : Bool) : List Record :=
  (Record.reported collapse a.outline).map
    (Record.ofNode a.path a.tree.text a.warnings)

end DocCoverage
