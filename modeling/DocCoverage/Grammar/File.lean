import DocCoverage.Grammar.Basic
import DocCoverage.Json.Shape

/-!
# Grammar files

A grammar file is a JSON record of up to three templates, each a record of up to nine patterns.
Fields that are missing take the standard pattern; other fields are refused.
-/
namespace DocCoverage

namespace Template

def shape : Json.Shape Text where
  fields :=
    ["main", "parameter_start", "parameter_end", "return_start", "return_end", "yield_start",
     "yield_end", "raise_start", "raise_end"]
  read _ := Json.readTextValue
  lenient := false

/-- The template with the given patterns, and the standard ones elsewhere. -/
def ofFields (given : List (Text × Text)) : Template :=
  let field (name standard : Text) : Text := (given.lookup name).getD standard
  let std := Template.standard
  { main := field "main" std.main
    parameterStart := field "parameter_start" std.parameterStart
    parameterEnd := field "parameter_end" std.parameterEnd
    returnStart := field "return_start" std.returnStart
    returnEnd := field "return_end" std.returnEnd
    yieldStart := field "yield_start" std.yieldStart
    yieldEnd := field "yield_end" std.yieldEnd
    raiseStart := field "raise_start" std.raiseStart
    raiseEnd := field "raise_end" std.raiseEnd }

def read (t : Text) : Json.Reading (Template × Text) := do
  let (given, t) ← shape.readRecord t
  return (ofFields given, t)

end Template

namespace TemplateSet

def shape : Json.Shape Template where
  fields := ["class", "function", "method"]
  read _ := Template.read
  lenient := false

def ofFile (t : Text) : Json.Reading TemplateSet := Json.finish do
  let (given, t) ← shape.readRecord t
  let field (name : Text) : Template := (given.lookup name).getD .standard
  return (⟨field "class", field "function", field "method"⟩, t)

end TemplateSet

end DocCoverage
