import DocCoverage.Text.Basic

/-!
# Docstring templates

A template says in patterns what a docstring looks like: one pattern for the whole docstring and,
for each sort of entry, what stands before and behind the part that names it. The standard
template has a free summary and then the fields `:param name:`, `:return:`, `:yield:` and
`:raise: Name`, in this order, each with an explanation that may go on over several lines.
-/
namespace DocCoverage

structure Template where
  main : Text
  parameterStart : Text
  parameterEnd : Text
  returnStart : Text
  returnEnd : Text
  yieldStart : Text
  yieldEnd : Text
  raiseStart : Text
  raiseEnd : Text
  deriving DecidableEq, Repr

namespace Template

/-- The rest of an entry's first line and the lines that continue it: those whose first character
other than a space is no colon. -/
def entryTail : Text := "[^\\n]*\\n(?:[ ]*[^\\s:][^\\n]*\\n)*"

/-- Any number of entries of one sort, with blank lines before each. -/
def entries (head : Text) : Text := "(?:(?:[ ]*\\n)*[ ]*" ++ head ++ entryTail ++ ")*"

/-- A triple quote of either sort. -/
def quotes : Text := "(?:\"\"\"|''')"

/-- A docstring over several lines. -/
def manyLines : Text :=
  "[ ]*" ++ quotes ++ "[^\\n]*\\n(?:[ ]*\\n|[ ]*[^\\s:][^\\n]*\\n)*" ++
    entries ":param[ ]+\\w+:" ++ entries ":returns?:" ++ entries ":yields?:" ++
    entries ":raises?:[ ]+[\\w.]+" ++ "(?:[ ]*\\n)*[ ]*" ++ quotes

/-- A docstring on one line. -/
def oneLine : Text := "[ ]*" ++ quotes ++ "[^\\n:]*" ++ quotes

def standard : Template where
  main := manyLines ++ "|" ++ oneLine
  parameterStart := ":param[ ]+"
  parameterEnd := ":" ++ entryTail
  returnStart := ":returns?:"
  returnEnd := entryTail
  yieldStart := ":yields?:"
  yieldEnd := entryTail
  raiseStart := ":raises?:[ ]+"
  raiseEnd := entryTail

end Template

structure TemplateSet where
  classes : Template
  functions : Template
  methods : Template
  deriving DecidableEq, Repr

def TemplateSet.standard : TemplateSet := ⟨.standard, .standard, .standard⟩

end DocCoverage
