import DocCoverage.Text.Basic

/-!
# Normal line ends and tabs

Sources are scanned with line feeds as line ends and without tabs: a carriage return in front of a
line feed is dropped, and a tab becomes spaces up to the next multiple of four columns.
-/
namespace DocCoverage.Text

def tabWidth : Nat := 4

/-- Expand the tabs of a line, from a column on. -/
def expandFrom (column : Nat) : Text → Text
  | [] => []
  | c :: t =>
    if c == '\t' then
      let pad := tabWidth - column % tabWidth
      List.replicate pad ' ' ++ expandFrom (column + pad) t
    else c :: expandFrom (column + 1) t

def expandTabs (line : Text) : Text := expandFrom 0 line

/-- The text with every carriage return in front of a line feed dropped. -/
def unixLines : Text → Text
  | [] => []
  | '\r' :: '\n' :: t => '\n' :: unixLines t
  | c :: t => c :: unixLines t

/-- The text as it is scanned. -/
def normalize (t : Text) : Text :=
  if t.contains '\t' || t.contains '\r' then
    joinWith "\n" ((splitOn '\n' (unixLines t)).map expandTabs)
  else t

end DocCoverage.Text
