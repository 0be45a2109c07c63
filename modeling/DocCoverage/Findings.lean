import DocCoverage.Docstring
import DocCoverage.Grammar.Basic
import DocCoverage.Signature

/-!
# What a docstring documents

The findings of a definition are read off its docstring, provided it has one that its grammar
accepts; otherwise they are empty. They are complete when every declared name is documented and
the numbers of return and yield entries are those of the statements.
-/
namespace DocCoverage

structure Findings where
  /-- Documented parameters in order. -/
  inputs : List Text := []
  returns : Nat := 0
  yields : Nat := 0
  /-- Documented errors in order. -/
  raises : List Text := []
  matched : Bool := false
  complete : Bool := false
  deriving DecidableEq, Repr

namespace Findings

/-- The documented entries cover what is declared. -/
def covers (kind : SpanKind) (sig : Signature) (f : Findings) : Bool :=
  (sig.documentable kind).all f.inputs.contains && f.returns == sig.returns &&
    f.yields == sig.yields && sig.raises.all f.raises.contains

def ofDocstring (g : Grammar) (kind : SpanKind) (sig : Signature) (doc : Text) : Findings :=
  if g.accepts doc then
    let f : Findings :=
      { inputs := g.parameters doc
        returns := g.returnCount doc
        yields := g.yieldCount doc
        raises := g.raisedNames doc
        matched := true }
    { f with complete := covers kind sig f }
  else {}

def ofSpan (gs : GrammarSet) (sig : Signature) (s : Span) : Findings :=
  match gs.forKind s.kind, s.docstring with
  | some g, some doc => ofDocstring g s.kind sig doc.text
  | _, _ => {}

end Findings

end DocCoverage
