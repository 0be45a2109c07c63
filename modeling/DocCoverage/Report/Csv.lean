import DocCoverage.Report.Column

/-!
# CSV reports

A report has a header row and a row for each record. A field with a comma, a quote or a line end is
put in quotes, with the quotes inside it doubled. Merging keeps the rows of files that the new
records do not replace, provided the old report has the same columns.
-/
namespace DocCoverage.Csv

/-- A field with its quotes doubled. -/
def doubleQuotes : Text → Text
  | [] => []
  | c :: t => if c == '"' then '"' :: '"' :: doubleQuotes t else c :: doubleQuotes t

def needsQuotes (c : Char) : Bool := c == ',' || c == '"' || c == '\n' || c == '\r'

def escape (field : Text) : Text :=
  if field.any needsQuotes then "\"" ++ doubleQuotes field ++ "\"" else field

def renderRow (fields : List Text) : Text := Text.joinWith "," (fields.map escape) ++ "\n"

/-- What has been read of the text: the finished rows and fields, the last first, and the
characters of the field that is being read, the last first. -/
structure Reading where
  rows : List (List Text)
  row : List Text
  field : Text

namespace Reading

def push (r : Reading) (c : Char) : Reading := { r with field := c :: r.field }

def endField (r : Reading) : Reading := { r with row := r.field.reverse :: r.row, field := [] }

def endRow (r : Reading) : Reading :=
  { rows := (r.field.reverse :: r.row).reverse :: r.rows, row := [], field := [] }

/-- A last row without a line end counts unless nothing at all was read of it. -/
def finish (r : Reading) : List (List Text) :=
  if r.field.isEmpty && r.row.isEmpty then r.rows.reverse else r.endRow.rows.reverse

end Reading

/-- Read on, inside or outside quotes. A quote outside opens quotes wherever it stands; a carriage
return outside is dropped. -/
def parseFrom : (quoted : Bool) → Reading → Text → List (List Text)
  | _, r, [] => r.finish
  | true, r, '"' :: '"' :: t => parseFrom true (r.push '"') t
  | true, r, c :: t => if c == '"' then parseFrom false r t else parseFrom true (r.push c) t
  | false, r, c :: t =>
    if c == '"' then parseFrom true r t
    else if c == ',' then parseFrom false r.endField t
    else if c == '\r' then parseFrom false r t
    else if c == '\n' then parseFrom false r.endRow t
    else parseFrom false (r.push c) t

/-- The rows of a text, each a list of fields. -/
def parse (t : Text) : List (List Text) := parseFrom false ⟨[], [], []⟩ t

def headerRow (columns : List Column) : List Text := columns.map (·.header)

def recordRow (columns : List Column) (r : Record) : List Text :=
  columns.map fun c => (c.cell r).display

def renderRows (rows : List (List Text)) : Text := (rows.map renderRow).flatten

def render (columns : List Column) (records : List Record) : Text :=
  renderRows (headerRow columns :: records.map (recordRow columns))

def belongsTo (paths : List Text) (index : Nat) (row : List Text) : Bool :=
  match row[index]? with
  | some p => paths.contains p
  | none => false

/-- The new records in an existing report, in place of the old rows of the replaced paths. -/
def merge (existing : Text) (columns : List Column) (records : List Record)
    (replaced : List Text) : Text :=
  match parse existing with
  | [] => render columns records
  | header :: old =>
    if header != headerRow columns then render columns records
    else
      match columns.findIdx? (· == .path) with
      | none => render columns records
      | some index =>
        renderRows (headerRow columns ::
          (old.filter fun row => !belongsTo replaced index row) ++
            records.map (recordRow columns))

end DocCoverage.Csv
