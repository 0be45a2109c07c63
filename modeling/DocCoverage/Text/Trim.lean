import DocCoverage.Text.Basic
import DocCoverage.Text.CharClass

/-!
# Trimming blanks

Blanks are the characters of the property White_Space.
-/
namespace DocCoverage.Text

def trimStart (t : Text) : Text := t.dropWhile isBlank

def trimEnd (t : Text) : Text := dropEndWhile isBlank t

def trim (t : Text) : Text := trimEnd (trimStart t)

/-- A text of blanks only. -/
def isBlankText (t : Text) : Bool := t.all isBlank

end DocCoverage.Text
