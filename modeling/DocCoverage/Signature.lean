import DocCoverage.Span.Basic
import DocCoverage.Text.Order

/-!
# What a definition declares

A callable declares its parameters, the number of its return and yield statements and the names it
raises. A class declares its attributes: the names reached through `self` in its own body and the
assigned names of that body, less its methods, and the properties.
-/
namespace DocCoverage

structure Signature where
  /-- Parameter names in order. -/
  inputs : List Text := []
  returns : Nat := 0
  yields : Nat := 0
  /-- Raised names in order. -/
  raises : List Text := []
  /-- Attribute names of a class, strictly increasing. -/
  attributes : List Text := []
  deriving DecidableEq, Repr

namespace Signature

/-- The text in front of the first equals sign that does not follow a backslash; `prev` is the
character before the text. -/
def beforeDefault (prev : Char) : Text → Text
  | [] => []
  | c :: t => if c == '=' && prev != '\\' then [] else c :: beforeDefault c t

/-- The name in one item of a parameter list: the item without its default and annotation. Starred
parameters and the bare slash have no name. -/
def parameterName (item : Text) : Option Text :=
  let name := Text.trim ((beforeDefault ' ' (Text.trim item)).takeWhile (· != ':'))
  if name.isEmpty || name.contains '*' || name == "/" then none else some name

/-- A text without one closing bracket at its end. -/
def dropClosing (t : Text) : Text :=
  match t.reverse with
  | ')' :: rest => rest.reverse
  | _ => t

/-- The items between the brackets of a parameter list. -/
def parameterItems (ownText : Text) : List Text :=
  Text.splitOn ',' (dropClosing (Text.dropPrefix "(" ownText))

/-- The parameter that stands for the object or class itself. -/
def receiver : SpanKind → Option Text
  | .method => some "self"
  | .classMethod => some "cls"
  | _ => none

/-- The parameters of a callable, without the receiver. They stand in the first bracket. -/
def parameters (s : Span) : List Text :=
  match s.children.find? (·.kind == .bracket) with
  | none => []
  | some list =>
    ((parameterItems list.ownText).filterMap parameterName).filter
      fun name => some name != receiver s.kind

def countOf (s : Span) (kind : SpanKind) : Nat := s.children.countP (·.kind == kind)

/-- The names of the raise statements directly in a span. -/
def raisedNames (s : Span) : List Text :=
  ((s.children.filter (·.kind == .raiseStmt)).map Span.name).filter (!·.isEmpty)

mutual

/-- The names reached through `self` inside a span, but not inside classes nested in it. -/
def selfNames : Span → List Text
  | ⟨_, _, _, _, _, _, children⟩ => selfNamesOf children

def selfNamesOf : List Span → List Text
  | [] => []
  | c :: rest =>
    (if c.kind == .selfAttribute then [c.name]
     else if c.kind == .classDef then []
     else selfNames c) ++ selfNamesOf rest

end

def isDecorator (name : Text) (s : Span) : Bool := s.kind == .decorator && s.name == name

/-- The methods that a child of a class body defines: the child itself, or what stands under
`@classmethod`. -/
def methodNames (child : Span) : List Text :=
  if child.kind == .method then [child.name]
  else if isDecorator "classmethod" child then
    (child.children.filter (·.kind.isCallable)).map Span.name
  else []

/-- The properties that a child of a class body defines. -/
def propertyNames (child : Span) : List Text :=
  if isDecorator "property" child then
    (child.children.filter (·.kind.isDefinition)).map Span.name
  else []

/-- The names assigned directly in a class body. -/
def assignedNames (s : Span) : List Text :=
  (s.children.filter (·.kind == .classAttribute)).map Span.name

def attributesOf (s : Span) : List Text :=
  let methods := s.children.flatMap methodNames
  let plain := (selfNames s ++ assignedNames s).filter fun name => !methods.contains name
  let all := plain ++ s.children.flatMap propertyNames
  Text.sorted (all.filter (!·.isEmpty))

/-- What a span declares; only definitions declare anything. -/
def ofSpan (s : Span) : Signature :=
  if s.kind == .classDef then { attributes := attributesOf s }
  else if s.kind.isCallable then
    { inputs := parameters s
      returns := countOf s .returnStmt
      yields := countOf s .yieldStmt
      raises := raisedNames s }
  else {}

/-- The names that a docstring has to document by parameter entries. -/
def documentable (sig : Signature) (kind : SpanKind) : List Text :=
  if kind == .classDef then sig.attributes else sig.inputs

end Signature

end DocCoverage
