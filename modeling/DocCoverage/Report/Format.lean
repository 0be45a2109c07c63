import DocCoverage.Report.Csv
import DocCoverage.Report.JsonReport
import DocCoverage.Report.Plain

/-!
# Report formats
-/
namespace DocCoverage

inductive Format where
  | csv
  | json
  | plain
  deriving DecidableEq, Repr

structure UnknownFormat where
  name : Text
  deriving DecidableEq, Repr

def UnknownFormat.message (e : UnknownFormat) : Text :=
  "unknown format: " ++ e.name ++ ". Use csv, json, or text"

namespace Format

def ofName (name : Text) : Except UnknownFormat Format :=
  if name == "csv" then .ok csv
  else if name == "json" then .ok json
  else if name == "text" || name == "txt" then .ok plain
  else .error ⟨name⟩

def extension : Format → Text
  | csv => "csv"
  | json => "json"
  | plain => "txt"

def render (f : Format) (columns : List Column) (records : List Record) : Text :=
  match f with
  | csv => Csv.render columns records
  | json => JsonReport.render columns records
  | plain => Plain.render records

/-- The records in an existing report. A plain report always starts over. -/
def merge (f : Format) (existing : Text) (columns : List Column) (records : List Record)
    (replaced : List Text) : Text :=
  match f with
  | csv => Csv.merge existing columns records replaced
  | json => JsonReport.merge existing columns records replaced
  | plain => Plain.render records

end Format

end DocCoverage
