import DocCoverage.Grammar.Template
import DocCoverage.Pattern.Match
import DocCoverage.Pattern.Parse
import DocCoverage.Span.Kind

/-!
# Docstring grammars

A grammar is a template whose patterns have been read. A template is refused when one of its
patterns alone is not well formed, or when it is not well formed in its place in a larger pattern.
-/
namespace DocCoverage

open Pattern (Expr)

structure Grammar where
  whole : Expr
  parameter : Expr
  returns : Expr
  yields : Expr
  raises : Expr

/-- The pattern of a template that cannot be used. -/
structure PatternError where
  /-- The kind of definition that the template is for. -/
  kind : Text
  field : Text
  deriving DecidableEq, Repr

def PatternError.message (e : PatternError) : Text :=
  e.kind ++ " template: `" ++ e.field ++ "` is not a valid pattern"

namespace Grammar

def readPattern (lib : Pattern.Library) (kind field pattern : Text) : Except PatternError Expr :=
  match Pattern.parse? lib pattern with
  | some e => .ok e
  | none => .error ⟨kind, field⟩

/-- The name of the group that holds a documented name. -/
def nameGroup : Text := "name"

/-- A named entry: what stands before the name, the name and what stands behind it. -/
def namedEntry (before name behind : Text) : Text :=
  "(?:" ++ before ++ ")(?P<" ++ nameGroup ++ ">" ++ name ++ ")(?:" ++ behind ++ ")"

/-- An entry without a name. -/
def plainEntry (before behind : Text) : Text := "(?:" ++ before ++ ")(?:" ++ behind ++ ")"

/-- The patterns of a template that have to be well formed on their own. -/
def fields (t : Template) : List (Text × Text) :=
  [("main", t.main), ("parameter_start", t.parameterStart), ("parameter_end", t.parameterEnd),
   ("return_start", t.returnStart), ("return_end", t.returnEnd), ("yield_start", t.yieldStart),
   ("yield_end", t.yieldEnd), ("raise_start", t.raiseStart), ("raise_end", t.raiseEnd)]

/-- The first field that is not a pattern, if there is one. -/
def checkFields (lib : Pattern.Library) (kind : Text) :
    List (Text × Text) → Except PatternError Unit
  | [] => .ok ()
  | (field, pattern) :: rest =>
    match readPattern lib kind field pattern with
    | .error e => .error e
    | .ok _ => checkFields lib kind rest

def compile (lib : Pattern.Library) (kind : Text) (t : Template) : Except PatternError Grammar := do
  checkFields lib kind (fields t)
  let whole ← readPattern lib kind "main" ("\\A(?:" ++ t.main ++ ")\\z")
  let parameter ← readPattern lib kind "parameter"
    (namedEntry t.parameterStart "\\w+" t.parameterEnd)
  let returns ← readPattern lib kind "return" (plainEntry t.returnStart t.returnEnd)
  let yields ← readPattern lib kind "yield" (plainEntry t.yieldStart t.yieldEnd)
  let raises ← readPattern lib kind "raise" (namedEntry t.raiseStart "[\\w.]+" t.raiseEnd)
  return ⟨whole, parameter, returns, yields, raises⟩

/-- The docstring has the form of the template. -/
def accepts (g : Grammar) (doc : Text) : Bool := g.whole.isMatch doc

/-- The names in the entries that a pattern finds, in order. -/
def namesOf (e : Expr) (doc : Text) : List Text :=
  (e.findAll doc).filterMap (·.group? nameGroup)

def parameters (g : Grammar) (doc : Text) : List Text := namesOf g.parameter doc

def returnCount (g : Grammar) (doc : Text) : Nat := (g.returns.findAll doc).length

def yieldCount (g : Grammar) (doc : Text) : Nat := (g.yields.findAll doc).length

def raisedNames (g : Grammar) (doc : Text) : List Text := namesOf g.raises doc

end Grammar

structure GrammarSet where
  classes : Grammar
  functions : Grammar
  methods : Grammar

namespace GrammarSet

def compile (lib : Pattern.Library) (ts : TemplateSet) : Except PatternError GrammarSet := do
  return ⟨← Grammar.compile lib "class" ts.classes, ← Grammar.compile lib "function" ts.functions,
    ← Grammar.compile lib "method" ts.methods⟩

/-- The grammar for a kind of span; only definitions have one. -/
def forKind (gs : GrammarSet) : SpanKind → Option Grammar
  | .classDef => some gs.classes
  | .function => some gs.functions
  | .method | .classMethod => some gs.methods
  | _ => none

end GrammarSet

end DocCoverage
