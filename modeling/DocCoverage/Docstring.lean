import DocCoverage.Span.Basic

/-!
# Where a definition's docstring stands

The header of a definition ends with its first colon outside nested spans. The docstring is the
first nested span behind it, if that is a triple-quoted string and only blanks and comments stand
between. Every function here has a checked form, which has no answer when an offset is not a cut
of the definition's text.
-/
namespace DocCoverage.Span

/-- The number of bytes in front of a text's first colon. -/
def colonOffset (t : Text) : Option Nat :=
  if t.contains ':' then some (Text.byteLength (t.takeWhile (· != ':'))) else none

/-- Absolute offset just past the first colon that no child covers, looking from `first` on. The
outer answer is missing when an offset is not a cut. -/
def headerEndFrom? (s : Span) (first : Nat) : List Span → Option (Option Nat)
  | [] => do
    let t ← s.gap? first s.stop
    return (colonOffset t).map (first + · + 1)
  | c :: rest => do
    let t ← s.gap? first c.start
    match colonOffset t with
    | some i => return some (first + i + 1)
    | none => headerEndFrom? s c.stop rest

/-- The docstring among the given children of a definition, looking from `first` on. -/
def docstringFrom? (s : Span) (first : Nat) : List Span → Option (Option Span)
  | [] => some none
  | c :: rest =>
    if c.start < first then docstringFrom? s first rest
    else do
      let t ← s.gap? first c.start
      if !Text.isBlankText t then return none
      if c.kind == .comment then docstringFrom? s c.stop rest
      else return if c.kind.isDocstring then some c else none

/-- The docstring of a definition, checked. -/
def docstring? (s : Span) : Option (Option Span) := do
  match ← s.headerEndFrom? s.start s.children with
  | none => return none
  | some first => s.docstringFrom? first s.children

def docstring (s : Span) : Option Span := s.docstring?.getD none

end DocCoverage.Span
