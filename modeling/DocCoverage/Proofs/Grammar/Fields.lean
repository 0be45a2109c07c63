import DocCoverage.Proofs.Grammar.Standard

/-!
# Fields of a docstring

Fields that take one line each, at indentation four: a parameter, a return, a yield or an error,
with a short explanation. The names in them are names of ASCII.
-/
namespace DocCoverage

namespace Text

/-- A division of a text into a front of one class and a rest that starts outside it is the only
one. -/
theorem span_unique {p : Char → Bool} {x x' a b : Text} (h : x ++ a = x' ++ b)
    (hx : ∀ c ∈ x, p c = true) (hx' : ∀ c ∈ x', p c = true)
    (ha : ∀ c, a.head? = some c → p c = false) (hb : ∀ c, b.head? = some c → p c = false) :
    x = x' ∧ a = b := by
  induction x generalizing x' with
  | nil =>
    cases x' with
    | nil => exact ⟨rfl, h⟩
    | cons d x' =>
      have hd := ha d (by rw [show a = d :: x' ++ b from h]; rfl)
      rw [hx' d List.mem_cons_self] at hd
      cases hd
  | cons c x ih =>
    cases x' with
    | nil =>
      have hc := hb c (by rw [show b = c :: x ++ a from h.symm]; rfl)
      rw [hx c List.mem_cons_self] at hc
      cases hc
    | cons d x' =>
      obtain ⟨rfl, htail⟩ := List.cons.inj h
      obtain ⟨rfl, rfl⟩ := ih htail (fun e he => hx e (List.mem_cons_of_mem _ he))
        (fun e he => hx' e (List.mem_cons_of_mem _ he))
      exact ⟨rfl, rfl⟩

/-- A letter, digit or underscore of ASCII. -/
def isAsciiWord (c : Char) : Bool := isAsciiLetter c || isAsciiDigit c || c == '_'

/-- A nonempty name of ASCII letters, digits and underscores that does not start with a digit. -/
structure AsciiIdentifier (t : Text) : Prop where
  first : ∃ c rest, t = c :: rest ∧ isAsciiDigit c = false
  word : ∀ c ∈ t, isAsciiWord c = true

/-- A nonempty name of ASCII letters, digits, underscores and dots. -/
structure AsciiDotted (t : Text) : Prop where
  ne_nil : t ≠ []
  dotted : ∀ c ∈ t, isAsciiWord c = true ∨ c = '.'

instance : DecidablePred AsciiIdentifier := fun t =>
  decidable_of_iff ((t.head?.any fun c => !isAsciiDigit c) = true ∧ t.all isAsciiWord = true)
    ⟨fun h => by
      obtain ⟨c, hc, hdigit⟩ := (Option.any_eq_true ..).mp h.1
      obtain ⟨rest, rfl⟩ := List.head?_eq_some_iff.mp hc
      exact ⟨⟨c, rest, rfl, by simpa using hdigit⟩, List.all_eq_true.mp h.2⟩,
    fun h => by
      refine ⟨?_, List.all_eq_true.mpr h.word⟩
      obtain ⟨c, rest, rfl, hdigit⟩ := h.first
      simpa using hdigit⟩

instance : DecidablePred AsciiDotted := fun t =>
  decidable_of_iff (t ≠ [] ∧ (t.all fun c => isAsciiWord c || c == '.') = true)
    ⟨fun h => ⟨h.1, by simpa using h.2⟩, fun h => ⟨h.ne_nil, by simpa using h.dotted⟩⟩

theorem isAscii_of_isAsciiWord {c : Char} (h : isAsciiWord c = true) : isAscii c = true := by
  have hle : c ≤ 'z' := by
    simp only [isAsciiWord, isAsciiLetter, isAsciiDigit, Bool.or_eq_true, Bool.and_eq_true,
      decide_eq_true_eq, beq_iff_eq] at h
    rcases h with ((⟨-, h⟩ | ⟨-, h⟩) | ⟨-, h⟩) | rfl
    · exact h
    · exact Char.le_trans h (by decide)
    · exact Char.le_trans h (by decide)
    · decide
  have hnat : c.toNat ≤ ('z').toNat := hle
  have hz : ('z').toNat = 122 := rfl
  rw [isAscii, decide_eq_true_eq]
  omega

theorem isWord_of_isAsciiWord {c : Char} (h : isAsciiWord c = true) : isWord c = true := by
  rw [isWord, if_pos (isAscii_of_isAsciiWord h)]
  exact h

theorem ne_of_isAsciiWord {c d : Char} (h : isAsciiWord c = true) (hd : isAsciiWord d = false) :
    c ≠ d := by
  rintro rfl
  rw [h] at hd
  cases hd

end Text

namespace Standard

/-- An indentation of four spaces. -/
def indent : Text := [' ', ' ', ' ', ' ']

/-- A line at indentation four. -/
def line (t : Text) : Text := indent ++ (t ++ ['\n'])

theorem indent_blank : ∀ c ∈ indent, (c == ' ') = true := List.all_eq_true.mp rfl

theorem head_eq {c : Char} {r : Text} {p : Char → Bool} (hc : p c = false) :
    ∀ d, (c :: r).head? = some d → p d = false := by
  intro d hd
  obtain rfl : c = d := by simpa using hd
  exact hc

end Standard

/-- A field of a docstring, on a line of its own. -/
inductive Field where
  | param (name : Text)
  | returns
  | yields
  | raises (name : Text)

namespace Field

open Standard

def text : Field → Text
  | param name => ":param " ++ (name ++ ": text")
  | returns => ":return: text"
  | yields => ":yield: text"
  | raises name => ":raise: " ++ (name ++ " text")

/-- The names in a field are names of ASCII. -/
def Named : Field → Prop
  | param name => name.AsciiIdentifier
  | raises name => name.AsciiDotted
  | _ => True

/-- The word behind the first colon. -/
def keyword : Field → Text
  | param _ => paramWord
  | returns => returnWord
  | yields => yieldWord
  | raises _ => raiseWord

/-- What stands between the keyword and the second colon. -/
def label : Field → Text
  | param name => ' ' :: name
  | _ => []

/-- What stands behind the second colon and a space. -/
def body : Field → Text
  | raises name => name ++ [' ', 't', 'e', 'x', 't']
  | _ => ['t', 'e', 'x', 't']

theorem text_eq (f : Field) :
    f.text = ':' :: (f.keyword ++ (f.label ++ ':' :: ' ' :: f.body)) := by
  cases f with
  | param name =>
    have front : (":param " : Text) = [':', 'p', 'a', 'r', 'a', 'm', ' '] := by decide +kernel
    have back : (": text" : Text) = [':', ' ', 't', 'e', 'x', 't'] := by decide +kernel
    exact congrArg₂ (fun a b : Text => a ++ (name ++ b)) front back
  | raises name =>
    have front : (":raise: " : Text) = [':', 'r', 'a', 'i', 's', 'e', ':', ' '] := by
      decide +kernel
    have back : (" text" : Text) = [' ', 't', 'e', 'x', 't'] := by decide +kernel
    exact congrArg₂ (fun a b : Text => a ++ (name ++ b)) front back
  | returns => decide +kernel
  | yields => decide +kernel

theorem not_mem_keyword {c : Char} (hc : Text.isAsciiWord c = false) (f : Field) :
    c ∉ f.keyword := by
  have hword : ∀ d ∈ f.keyword, Text.isAsciiWord d = true := by
    cases f <;> exact List.all_eq_true.mp rfl
  intro hmem
  exact Text.ne_of_isAsciiWord (hword c hmem) hc rfl

theorem not_mem_label {f : Field} (h : f.Named) {c : Char} (hc : Text.isAsciiWord c = false)
    (hspace : c ≠ ' ') : c ∉ f.label := by
  cases f with
  | param name =>
    intro hmem
    rcases List.mem_cons.mp hmem with hmem | hmem
    · exact hspace hmem
    · exact Text.ne_of_isAsciiWord (h.word c hmem) hc rfl
  | _ => exact List.not_mem_nil

theorem not_mem_body {f : Field} (h : f.Named) {c : Char} (hc : Text.isAsciiWord c = false)
    (hspace : c ≠ ' ') (hdot : c ≠ '.') : c ∉ f.body := by
  have hword : c ∉ ['t', 'e', 'x', 't'] := by
    intro hmem
    have htext : ∀ d ∈ ['t', 'e', 'x', 't'], Text.isAsciiWord d = true := List.all_eq_true.mp rfl
    exact Text.ne_of_isAsciiWord (htext c hmem) hc rfl
  cases f with
  | raises name =>
    intro hmem
    rcases List.mem_append.mp hmem with hmem | hmem
    · rcases h.dotted c hmem with hname | hname
      · exact Text.ne_of_isAsciiWord hname hc rfl
      · exact hdot hname
    · rcases List.mem_cons.mp hmem with hmem | hmem
      · exact hspace hmem
      · exact hword hmem
  | _ => exact hword

theorem not_mem_text {f : Field} (h : f.Named) {c : Char} (hc : Text.isAsciiWord c = false)
    (hmarks : c ∉ [' ', '.', ':']) : c ∉ f.text := by
  simp only [List.mem_cons, List.not_mem_nil, or_false, not_or] at hmarks
  obtain ⟨hspace, hdot, hcolon⟩ := hmarks
  rw [text_eq]
  simp only [List.mem_cons, List.mem_append, not_or]
  exact ⟨hcolon, not_mem_keyword hc f, not_mem_label h hc hspace, hcolon, hspace,
    not_mem_body h hc hspace hdot⟩

end Field

end DocCoverage
