import DocCoverage.Text.Basic

/-!
# Kinds of source regions

A scan cuts a source file into nested regions. The kind of a region says what opened it; only
the file and the definitions get a record of their own in a report.
-/
namespace DocCoverage

inductive SpanKind where
  | file
  | classDef
  | function
  | method
  | classMethod
  | bracket
  | straightBracket
  | curvedBracket
  | singleString
  | doubleString
  | formattedSingleString
  | formattedDoubleString
  | singleDocstring
  | doubleDocstring
  | comment
  | selfAttribute
  | classAttribute
  | returnStmt
  | raiseStmt
  | yieldStmt
  | decorator
  | decoratorArgument
  deriving DecidableEq, Repr

namespace SpanKind

def isDefinition : SpanKind → Bool
  | classDef | function | method | classMethod => true
  | _ => false

/-- A definition that takes a parameter list. -/
def isCallable : SpanKind → Bool
  | function | method | classMethod => true
  | _ => false

/-- A kind with a record of its own: the file or a definition. -/
def isReportable (k : SpanKind) : Bool := k == file || k.isDefinition

def isDocstring : SpanKind → Bool
  | singleDocstring | doubleDocstring => true
  | _ => false

/-- The word for a kind in reports and warnings. -/
def tag : SpanKind → Text
  | file => "file"
  | classDef => "class"
  | function => "function"
  | method => "method"
  | classMethod => "classmethod"
  | bracket => "bracket"
  | straightBracket => "straight bracket"
  | curvedBracket => "curved bracket"
  | singleString => "single string"
  | doubleString => "double string"
  | formattedSingleString => "formatted single string"
  | formattedDoubleString => "formatted double string"
  | singleDocstring => "single multiline string"
  | doubleDocstring => "double multiline string"
  | comment => "comment"
  | selfAttribute => "self attribute"
  | classAttribute => "class attribute"
  | returnStmt => "return"
  | raiseStmt => "raise"
  | yieldStmt => "yield"
  | decorator => "decorator"
  | decoratorArgument => "decorator argument"

end SpanKind

end DocCoverage
