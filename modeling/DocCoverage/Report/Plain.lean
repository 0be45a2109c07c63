import DocCoverage.Report.Column

/-!
# Plain reports

One line for each record says what keeps it from being documented, and a last line counts them.
-/
namespace DocCoverage.Plain

/-- A list of names behind a heading; nothing without names. -/
def missingNames (heading : Text) (names : List Text) : List Text :=
  if names.isEmpty then [] else [heading ++ " " ++ Text.joinWith ", " names]

/-- Statements of one sort whose number differs from the documented one. -/
def miscounted (noun : Text) (found declared : Nat) : List Text :=
  if found == declared then []
  else [Text.ofNat found ++ " of " ++ Text.ofNat declared ++ " " ++ noun ++ " documented"]

/-- Everything that the docstring of a definition leaves out. -/
def gaps (r : Record) : List Text :=
  missingNames "missing inputs" r.missingInputs ++
    missingNames "missing attributes" r.missingParameters ++
    miscounted "returns" r.foundReturns r.returns ++
    miscounted "yields" r.foundYields r.yields ++
    missingNames "missing raises" r.missingRaises

/-- What is wrong with a definition that has a docstring of the right form. -/
def describeGaps (gs : List Text) : Text :=
  if gs.isEmpty then "nested definitions incomplete" else Text.joinWith "; " gs

/-- What keeps a record from being documented; the first reason that applies counts. -/
def verdict (r : Record) : Text :=
  if r.documented then "documented"
  else if !r.warnings.isEmpty then Text.joinWith "; " r.warnings
  else if r.kind == .file then "incomplete"
  else if !r.multilineComments then "no docstring"
  else if !r.formattedMultiline then "docstring does not match the grammar"
  else describeGaps (gaps r)

def renderLine (r : Record) : Text :=
  r.path ++ ":" ++ Text.ofNat r.startLine ++ ": " ++ r.kind.tag ++ " " ++ r.name ++ ": " ++
    verdict r ++ "\n"

def totals (records : List Record) : Text :=
  let documented := records.countP (·.documented)
  Text.ofNat records.length ++ " spans, " ++ Text.ofNat documented ++ " documented, " ++
    Text.ofNat (records.length - documented) ++ " incomplete\n"

def render (records : List Record) : Text := records.flatMap renderLine ++ totals records

end DocCoverage.Plain
