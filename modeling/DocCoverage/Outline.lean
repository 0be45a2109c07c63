import DocCoverage.Findings

/-!
# Outlines and coverage

The outline of a file is the tree of its definitions: below each node stand the closest
definitions inside its span, whatever other spans lie between. Each node carries what it declares,
what its docstring documents and the coverage that follows from both and from the nodes below.
-/
namespace DocCoverage

/-- How far a file or definition is documented. -/
structure Coverage where
  /-- There is a comment or docstring somewhere inside. -/
  basic : Bool
  /-- There is a docstring. -/
  multiline : Bool
  /-- The docstring has the form of the grammar. -/
  formatted : Bool
  /-- Everything declared is documented, in nested definitions too. -/
  complete : Bool
  deriving DecidableEq, Repr

structure Outline where
  kind : SpanKind
  name : Text
  start : Nat
  stop : Nat
  signature : Signature
  findings : Findings
  coverage : Coverage
  /-- The span or a span inside it ran to the end of the file unclosed. -/
  tainted : Bool
  children : List Outline

namespace Coverage

def hasComment (s : Span) : Bool :=
  s.descendants.any fun d => d.kind == .comment || d.kind.isDocstring

def hasDocstring (s : Span) : Bool := s.children.any (·.kind.isDocstring)

def ofDefinition (s : Span) (f : Findings) (nested : List Coverage) : Coverage where
  basic := hasComment s
  multiline := hasDocstring s
  formatted := f.matched
  complete := f.complete && nested.all (·.complete)

/-- The coverage of a file; one without definitions has nothing to document. -/
def ofFile (s : Span) (nested : List Coverage) : Coverage :=
  if nested.isEmpty then ⟨true, true, true, true⟩
  else
    { basic := hasComment s
      multiline := hasDocstring s || nested.all (·.multiline)
      formatted := nested.all (·.formatted)
      complete := nested.all (·.complete) }

def ofSpan (s : Span) (f : Findings) (nested : List Coverage) : Coverage :=
  if s.kind == .file then ofFile s nested else ofDefinition s f nested

end Coverage

namespace Outline

def isTainted (s : Span) : Bool := s.preorder.any (·.unterminated)

/-- The node of a span above the nodes of its nested definitions. -/
def node (gs : GrammarSet) (name : Text) (s : Span) (children : List Outline) : Outline :=
  let tainted := isTainted s
  let signature := Signature.ofSpan s
  let findings := if tainted then {} else Findings.ofSpan gs signature s
  { kind := s.kind
    name := name
    start := s.start
    stop := s.stop
    signature := signature
    findings := findings
    coverage := Coverage.ofSpan s findings (children.map (·.coverage))
    tainted := tainted
    children := children }

mutual

/-- The nodes of the closest definitions inside a span. -/
def nested (gs : GrammarSet) : Span → List Outline
  | ⟨_, _, _, _, _, _, children⟩ => nestedIn gs children

/-- The nodes of the closest definitions among some spans and inside them. -/
def nestedIn (gs : GrammarSet) : List Span → List Outline
  | [] => []
  | c :: rest =>
    (if c.kind.isDefinition then [node gs c.name c (nested gs c)] else nested gs c) ++
      nestedIn gs rest

end

/-- The outline of a file, whose root has the given name. -/
def ofSpan (gs : GrammarSet) (name : Text) (s : Span) : Outline := node gs name s (nested gs s)

mutual

/-- The node and every node below it, each before its own children. -/
def walk : Outline → List Outline
  | ⟨kind, name, start, stop, signature, findings, coverage, tainted, children⟩ =>
    ⟨kind, name, start, stop, signature, findings, coverage, tainted, children⟩ ::
      walkAll children

def walkAll : List Outline → List Outline
  | [] => []
  | o :: rest => walk o ++ walkAll rest

end

end Outline

end DocCoverage
