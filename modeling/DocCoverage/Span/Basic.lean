import DocCoverage.Span.Kind
import DocCoverage.Text.Trim

/-!
# Spans

A span is one region of a source file with its text, its byte range in the file and the spans
nested in it, in source order. The cuts a span makes in its own text are partial: `gap?` and
`ownText?` have an answer only where every offset is a cut between characters of the text.
-/
namespace DocCoverage

structure Span where
  kind : SpanKind
  /-- The characters from `start` up to `stop`. -/
  text : Text
  /-- Byte offset of the first byte in the file. -/
  start : Nat
  /-- Byte offset just past the last byte. -/
  stop : Nat
  /-- Indentation of the line on which the span opened. -/
  indent : Nat
  /-- The text of the file ended before the closing delimiter. -/
  unterminated : Bool
  children : List Span

namespace Span

mutual

/-- Every span below this one, each before its own children. -/
def descendants : Span → List Span
  | ⟨_, _, _, _, _, _, children⟩ => forest children

/-- The spans of a list, each followed by its descendants. -/
def forest : List Span → List Span
  | [] => []
  | s :: rest => s :: (descendants s ++ forest rest)

end

def preorder (s : Span) : List Span := s :: s.descendants

/-- The text between two offsets of the file that lie inside the span. -/
def gap? (s : Span) (first last : Nat) : Option Text :=
  if first < s.start || last < s.start then none
  else Text.slice? s.text (first - s.start) (last - s.start)

/-- The pieces of the span's text between consecutive children, from offset `first` on. -/
def gapsFrom? (s : Span) (first : Nat) : List Span → Option (List Text)
  | [] => do return [← s.gap? first s.stop]
  | c :: rest => do return (← s.gap? first c.start) :: (← gapsFrom? s c.stop rest)

/-- The span's text with the text of every child cut out. -/
def ownText? (s : Span) : Option Text := (s.gapsFrom? s.start s.children).map List.flatten

/-- `ownText?` with the empty text where there is no answer. -/
def ownText (s : Span) : Text := s.ownText?.getD []

/-- The name in the header of a definition: what stands between the keyword and the first
bracket, colon or line end. -/
def headerName (keyword t : Text) : Text :=
  Text.trim (Text.breakAt (fun c => c == '(' || c == ':' || c == '\n')
    (Text.dropPrefix keyword t)).1

/-- The name of a span of the given kind and text; empty for kinds that carry none. -/
def nameOf (kind : SpanKind) (t : Text) : Text :=
  match kind with
  | .classDef => headerName "class" t
  | .function | .method | .classMethod => headerName "def" t
  | .decorator | .decoratorArgument => (Text.dropPrefix "@" t).takeWhile Text.isDotted
  | .selfAttribute => ((t.dropWhile (· != '.')).drop 1).takeWhile Text.isIdentifier
  | .classAttribute => Text.trim t
  | .raiseStmt => (Text.trimStart (Text.dropPrefix "raise" t)).takeWhile Text.isDotted
  | .returnStmt => "return"
  | .yieldStmt => "yield"
  | _ => []

def name (s : Span) : Text := nameOf s.kind s.text

end Span

end DocCoverage
