import DocCoverage.Record

/-!
# Report columns

A column picks one cell out of a record. A selection names columns by their headers; hyphens and
underscores count as spaces there, and the case of ASCII letters does not matter.
-/
namespace DocCoverage

inductive Cell where
  | text (t : Text)
  | list (ts : List Text)
  | count (n : Nat)
  | flag (b : Bool)
  deriving DecidableEq, Repr

/-- The cell as one text. -/
def Cell.display : Cell → Text
  | text t => t
  | list ts => Text.joinWith ":" ts
  | count n => Text.ofNat n
  | flag true => "True"
  | flag false => "False"

inductive Column where
  | path
  | name
  | type
  | startChar
  | endChar
  | startLine
  | endLine
  | inputs
  | foundInputs
  | missingInputs
  | returns
  | foundReturns
  | yields
  | foundYields
  | raises
  | foundRaises
  | missingRaises
  | parameters
  | foundParameters
  | missingParameters
  | basicComments
  | multilineComments
  | formattedMultiline
  | documented
  | warnings
  deriving DecidableEq, Repr

namespace Column

def all : List Column :=
  [path, name, type, startChar, endChar, startLine, endLine, inputs, foundInputs, missingInputs,
   returns, foundReturns, yields, foundYields, raises, foundRaises, missingRaises, parameters,
   foundParameters, missingParameters, basicComments, multilineComments, formattedMultiline,
   documented, warnings]

/-- The columns of a report when none are asked for. -/
def standard : List Column :=
  [path, name, type, missingInputs, returns, foundReturns, yields, foundYields, missingRaises,
   missingParameters, basicComments, multilineComments, formattedMultiline, documented]

def header : Column → Text
  | path => "path"
  | name => "name"
  | type => "type"
  | startChar => "start char"
  | endChar => "end char"
  | startLine => "start line"
  | endLine => "end line"
  | inputs => "inputs"
  | foundInputs => "found inputs"
  | missingInputs => "missing inputs"
  | returns => "returns"
  | foundReturns => "found returns"
  | yields => "yields"
  | foundYields => "found yields"
  | raises => "raises"
  | foundRaises => "found raises"
  | missingRaises => "missing raises"
  | parameters => "parameters"
  | foundParameters => "found parameters"
  | missingParameters => "missing parameters"
  | basicComments => "basic comments"
  | multilineComments => "multiline comments"
  | formattedMultiline => "formatted multiline"
  | documented => "documented"
  | warnings => "warnings"

def cell (r : Record) : Column → Cell
  | path => .text r.path
  | name => .text r.name
  | type => .text r.kind.tag
  | startChar => .count r.start
  | endChar => .count r.stop
  | startLine => .count r.startLine
  | endLine => .count r.endLine
  | inputs => .list r.inputs
  | foundInputs => .list r.foundInputs
  | missingInputs => .list r.missingInputs
  | returns => .count r.returns
  | foundReturns => .count r.foundReturns
  | yields => .count r.yields
  | foundYields => .count r.foundYields
  | raises => .list r.raises
  | foundRaises => .list r.foundRaises
  | missingRaises => .list r.missingRaises
  | parameters => .list r.parameters
  | foundParameters => .list r.foundParameters
  | missingParameters => .list r.missingParameters
  | basicComments => .flag r.basicComments
  | multilineComments => .flag r.multilineComments
  | formattedMultiline => .flag r.formattedMultiline
  | documented => .flag r.documented
  | warnings => .list r.warnings

/-- A column name without its accidents of spelling. -/
def spelling (t : Text) : Text :=
  (Text.trim t).map fun c => if c == '-' || c == '_' then ' ' else c.toLower

def ofName? (t : Text) : Option Column := all.find? fun c => c.header == spelling t

/-- The first name that is no column. -/
structure UnknownColumn where
  name : Text
  deriving DecidableEq, Repr

def UnknownColumn.message (e : UnknownColumn) : Text := "unknown column `" ++ e.name ++ "`"

def ofNames : List Text → Except UnknownColumn (List Column)
  | [] => .ok []
  | t :: ts =>
    match ofName? t with
    | none => .error ⟨t⟩
    | some c =>
      match ofNames ts with
      | .error e => .error e
      | .ok cs => .ok (c :: cs)

/-- The columns of a selection: the standard ones for none, every one for the single word `all`. -/
def select (names : List Text) : Except UnknownColumn (List Column) :=
  match names with
  | [] => .ok standard
  | [t] => if t == "all" then .ok all else ofNames [t]
  | names => ofNames names

end Column

end DocCoverage
