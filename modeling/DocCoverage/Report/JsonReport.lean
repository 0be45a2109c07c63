import DocCoverage.Json.Shape
import DocCoverage.Report.Column

/-!
# JSON reports

A report is an array with an object for each record, whose members are the selected columns.
Merging keeps the objects of files that the new records do not replace; a text that is no array of
objects is written over.
-/
namespace DocCoverage.JsonReport

def cellValue : Cell → Json
  | .text t => .text t
  | .list ts => .array (ts.map .text)
  | .count n => .number (.nat n)
  | .flag b => .bool b

abbrev Members := List (Text × Json)

def ofRecord (columns : List Column) (r : Record) : Members :=
  columns.foldl (fun ms c => Text.bind c.header (cellValue (c.cell r)) ms) []

def renderObjects (objects : List Members) : Text := (Json.array (objects.map .object)).pretty

def render (columns : List Column) (records : List Record) : Text :=
  renderObjects (records.map (ofRecord columns))

/-- The objects of a report, if the text is an array of objects. -/
def parse (t : Text) : Json.Reading (List Members) :=
  Json.finish (Json.readList
    (Json.readMap fun t => Json.readValue (Json.fuelFor t) (Json.nestLimit - 2) t) t)

def belongsTo (paths : List Text) (members : Members) : Bool :=
  match members.lookup (Column.header .path) with
  | some (.text p) => paths.contains p
  | _ => false

/-- The new records in an existing report, in place of the old objects of the replaced paths. -/
def merge (existing : Text) (columns : List Column) (records : List Record)
    (replaced : List Text) : Text :=
  match parse existing with
  | .error _ => render columns records
  | .ok old =>
    renderObjects ((old.filter fun ms => !belongsTo replaced ms) ++
      records.map (ofRecord columns))

end DocCoverage.JsonReport
