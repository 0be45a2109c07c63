import DocCoverage.Grammar.Basic
import DocCoverage.Proofs.Pattern.Entries
import DocCoverage.Proofs.Pattern.Properties

/-!
# The standard grammar

The expressions that the standard template is read as, put together from their parts.
-/
namespace DocCoverage

open Pattern (CharSet Expr)

namespace Standard

def char (c : Char) : Expr := .chars (.single c)

def letters (w : Text) : List Expr := w.map char

def spaces : Expr := .rep (char ' ') 0 none true

def gap : Expr := .rep (char ' ') 1 none true

/-- The rest of a line in front of its line feed. -/
def lineRest : Expr := .rep (.chars (.compl (.single '\n'))) 0 none true

/-- The first character of a text line. -/
def leading : CharSet := .compl (.union (.union .empty .blank) (.single ':'))

def textLine : List Expr := [spaces, .chars leading, lineRest, char '\n']

def blankLine : List Expr := [spaces, char '\n']

def entryTail : List Expr :=
  [lineRest, char '\n', .rep (.group none (.sequence textLine)) 0 none true]

def optionalS : Expr := .rep (char 's') 0 (some 1) true

def name : Expr := .rep (.chars .word) 1 none true

def dotted : CharSet := .union (.union .empty .word) (.single '.')

def dottedName : Expr := .rep (.chars dotted) 1 none true

def paramWord : Text := ['p', 'a', 'r', 'a', 'm']

def returnWord : Text := ['r', 'e', 't', 'u', 'r', 'n']

def yieldWord : Text := ['y', 'i', 'e', 'l', 'd']

def raiseWord : Text := ['r', 'a', 'i', 's', 'e']

/-- What opens a field of the given word, in front of its name. -/
def paramHead : List Expr := letters (':' :: paramWord) ++ [gap]

def returnHead : List Expr := letters (':' :: returnWord) ++ [optionalS, char ':']

def yieldHead : List Expr := letters (':' :: yieldWord) ++ [optionalS, char ':']

def raiseHead : List Expr := letters (':' :: raiseWord) ++ [optionalS, char ':', gap]

def blankLines : Expr := .rep (.group none (.sequence blankLine)) 0 none true

/-- One entry of a sort, with blank lines before it. -/
def entry (head : List Expr) : Expr :=
  .group none (.sequence (blankLines :: spaces :: (head ++ entryTail)))

def entries (head : List Expr) : Expr := .rep (entry head) 0 none true

def quotes : Expr :=
  .group none (.alt (.sequence (letters ['"', '"', '"'])) (.sequence (letters ['\'', '\'', '\''])))

def summaryLine : Expr := .group none (.alt (.sequence blankLine) (.sequence textLine))

def manyLines : Expr :=
  .sequence [spaces, quotes, lineRest, char '\n', .rep summaryLine 0 none true,
    entries (paramHead ++ [name, char ':']), entries returnHead, entries yieldHead,
    entries (raiseHead ++ [dottedName]), blankLines, spaces, quotes]

def oneLine : Expr :=
  .sequence [spaces, quotes,
    .rep (.chars (.compl (.union (.union .empty (.single '\n')) (.single ':')))) 0 none true,
    quotes]

def plain (head : List Expr) : Expr :=
  .sequence [.group none (.sequence head), .group none (.sequence entryTail)]

end Standard

open Standard in
def Grammar.standard : Grammar where
  whole := .sequence [.look .textStart, .group none (.alt manyLines oneLine), .look .textEnd]
  parameter := .sequence [.group none (.sequence paramHead),
    .group (some nameGroup) name, .group none (.sequence (char ':' :: entryTail))]
  returns := plain returnHead
  yields := plain yieldHead
  raises := .sequence [.group none (.sequence raiseHead), .group (some nameGroup) dottedName,
    .group none (.sequence entryTail)]

namespace Grammar

theorem checkFields_standard (lib : Pattern.Library) (kind : Text) :
    checkFields lib kind (fields Template.standard) = .ok () := by
  have h : (fields Template.standard).all (fun f =>
      (Pattern.read? Pattern.noProperties f.2).any fun node =>
        node.depth ≤ Pattern.nestLimit && node.expr.weight ≤ Pattern.sizeLimit && true) = true := by
    decide +kernel
  revert h
  induction fields Template.standard with
  | nil => exact fun _ => rfl
  | cons f fs ih =>
    intro h
    rw [List.all_cons, Bool.and_eq_true] at h
    obtain ⟨e, he, -⟩ :=
      Pattern.exists_parse?_of_noProperties lib (fun _ => true) h.1
    simp only [checkFields, readPattern, he]
    exact ih h.2

theorem compile_standard (lib : Pattern.Library) (kind : Text) :
    compile lib kind Template.standard = .ok standard := by
  have hw : Pattern.parse? lib ("\\A(?:" ++ Template.standard.main ++ ")\\z") =
      some standard.whole := Pattern.parse?_of_noProperties lib (by decide +kernel)
  have hp : Pattern.parse? lib (namedEntry Template.standard.parameterStart "\\w+"
      Template.standard.parameterEnd) = some standard.parameter :=
    Pattern.parse?_of_noProperties lib (by decide +kernel)
  have hr : Pattern.parse? lib (plainEntry Template.standard.returnStart
      Template.standard.returnEnd) = some standard.returns :=
    Pattern.parse?_of_noProperties lib (by decide +kernel)
  have hy : Pattern.parse? lib (plainEntry Template.standard.yieldStart
      Template.standard.yieldEnd) = some standard.yields :=
    Pattern.parse?_of_noProperties lib (by decide +kernel)
  have hx : Pattern.parse? lib (namedEntry Template.standard.raiseStart "[\\w.]+"
      Template.standard.raiseEnd) = some standard.raises :=
    Pattern.parse?_of_noProperties lib (by decide +kernel)
  simp only [compile, checkFields_standard, readPattern, hw, hp, hr, hy, hx]
  rfl

end Grammar

theorem GrammarSet.compile_standard (lib : Pattern.Library) :
    compile lib TemplateSet.standard = .ok ⟨.standard, .standard, .standard⟩ := by
  simp only [compile, TemplateSet.standard, Grammar.compile_standard]
  rfl

end DocCoverage
