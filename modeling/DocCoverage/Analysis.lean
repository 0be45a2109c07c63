import DocCoverage.LineIndex
import DocCoverage.Outline
import DocCoverage.Span.Scan

/-!
# Analysing a file

An analysis scans a source, outlines its definitions and warns of every span that ran into the end
of the file. The path is a label.
-/
namespace DocCoverage

/-- A span that was not closed. -/
structure Warning where
  kind : SpanKind
  start : Nat
  line : Nat
  deriving DecidableEq, Repr

def Warning.message (w : Warning) : Text :=
  "unterminated " ++ w.kind.tag ++ " at line " ++ Text.ofNat w.line

structure Analysis where
  path : Text
  tree : Span
  outline : Outline
  warnings : List Warning

/-- The part of a path behind the last separator of either sort. -/
def baseName (path : Text) : Text :=
  (path.reverse.takeWhile fun c => !(c == '/' || c == '\\')).reverse

def warningsOf (source : Text) (tree : Span) : List Warning :=
  (tree.preorder.filter (·.unterminated)).map fun s => ⟨s.kind, s.start, lineOf source s.start⟩

def analyze (gs : GrammarSet) (options : ScanOptions) (path source : Text) :
    Except ScanError Analysis :=
  match scan options source with
  | .error e => .error e
  | .ok tree => .ok ⟨path, tree, Outline.ofSpan gs (baseName path) tree, warningsOf source tree⟩

def Analysis.coverage (a : Analysis) : Coverage := a.outline.coverage

end DocCoverage
