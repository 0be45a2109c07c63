import DocCoverage.Files.Tree
import DocCoverage.Report.Format

/-!
# Report files

A report is written to a file, into the report that is already there. A directory gets a new report
whose name holds the time.
-/
namespace DocCoverage.Report

inductive Error where
  | unreadable (path : Text) (error : FileError)
  | unwritable (path : Text) (error : FileError)
  deriving DecidableEq, Repr

def Error.message : Error → Text
  | unreadable path e => "failed to read report " ++ path ++ ": " ++ e.message
  | unwritable path e => "failed to write report " ++ path ++ ": " ++ e.message

/-- The name of a report in a directory, for a time of day. -/
def fileName (time : Text) (format : Format) : Text :=
  "LintwormReport_" ++ time ++ "." ++ format.extension

/-- The file that a target stands for. -/
def targetPath (fs : FileTree) (time : Text) (format : Format) (target : Text) : Text :=
  if fs.isDirectory target then Path.join target (fileName time format) else target

/-- The text of the report at a path: the records in the report that is there, if there is one. -/
def contentAt (fs : FileTree) (format : Format) (path : Text) (columns : List Column)
    (records : List Record) (replaced : List Text) : Except Error Text :=
  if fs.isFile path then
    match fs.readText path with
    | .error e => .error (.unreadable path e)
    | .ok existing => .ok (format.merge existing columns records replaced)
  else .ok (format.render columns records)

/-- Write a report; gives the path that was written and the tree after it. -/
def write (fs : FileTree) (time : Text) (format : Format) (target : Text) (columns : List Column)
    (records : List Record) (replaced : List Text) : Except Error (Text × FileTree) :=
  let path := targetPath fs time format target
  match contentAt fs format path columns records replaced with
  | .error e => .error e
  | .ok content =>
    match fs.writeText path content with
    | .error e => .error (.unwritable path e)
    | .ok fs => .ok (path, fs)

end DocCoverage.Report
