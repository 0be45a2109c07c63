import DocCoverage.Text.Trim

/-!
# Glob patterns

A pattern is a row of tokens: characters, `?` for any character, `*` for any text, classes in
square brackets and `**/` for any number of whole path components. A slash is an ordinary
character to all but the last.
-/
namespace DocCoverage.Glob

/-- A member of a class in brackets. -/
inductive Member where
  | single (c : Char)
  | range (first last : Char)
  deriving DecidableEq, Repr

inductive Token where
  | char (c : Char)
  | anyChar
  | anyText
  /-- Any number of whole components. -/
  | components
  | oneOf (ms : List Member)
  | noneOf (ms : List Member)
  deriving DecidableEq, Repr

inductive Fault where
  | wildcards
  | recursiveWildcards
  | range
  deriving DecidableEq, Repr

/-- A fault and the number of characters before it. -/
structure Error where
  position : Nat
  fault : Fault
  deriving DecidableEq, Repr

def Fault.message : Fault → Text
  | wildcards => "wildcards are either regular `*` or recursive `**`"
  | recursiveWildcards => "recursive wildcards must form a single path component"
  | range => "invalid range pattern"

def Error.message (e : Error) : Text :=
  "Pattern syntax error near position " ++ Text.ofNat e.position ++ ": " ++ e.fault.message

/-- The members of a class between its brackets. -/
def members : Text → List Member
  | a :: '-' :: b :: t => .range a b :: members t
  | a :: t => .single a :: members t
  | [] => []

/-- A class behind its opening bracket: the members, whether they are excluded, and the text behind
the closing bracket. The first member may be a closing bracket. -/
def bracket? (t : Text) : Option (Token × Text) :=
  let closed (first : Char) (t : Text) : Option (List Member × Text) :=
    match t.span (· != ']') with
    | (inside, ']' :: rest) => some (members (first :: inside), rest)
    | _ => none
  match t with
  | '!' :: c :: t => (closed c t).map fun (ms, rest) => (.noneOf ms, rest)
  | '!' :: [] => none
  | c :: t => (closed c t).map fun (ms, rest) => (.oneOf ms, rest)
  | [] => none

/-- Put a token for whole components behind the tokens read so far, the last first, unless one is
there already. -/
def pushComponents : List Token → List Token
  | .components :: t :: ts => .components :: t :: ts
  | ts => .components :: ts

/-- Read the tokens; `position` characters stand before the text, the last of them `prev`, and
`done` are the tokens read so far, the last first. -/
def parseFrom : (fuel position : Nat) → (prev : Option Char) → List Token → Text →
    Except Error (List Token)
  | 0, _, _, done, _ => .ok done.reverse
  | _ + 1, _, _, done, [] => .ok done.reverse
  | n + 1, position, prev, done, c :: t =>
    if c == '?' then parseFrom n (position + 1) (some c) (.anyChar :: done) t
    else if c == '*' then
      let stars := (t.takeWhile (· == '*')).length + 1
      let rest := t.dropWhile (· == '*')
      if 2 < stars then .error ⟨position + 2, .wildcards⟩
      else if stars == 1 then parseFrom n (position + 1) (some c) (.anyText :: done) t
      else if prev.isNone || prev == some '/' then
        match rest with
        | [] => parseFrom n (position + 2) (some '*') (pushComponents done) []
        | d :: rest =>
          if d == '/' then parseFrom n (position + 3) (some '/') (pushComponents done) rest
          else .error ⟨position + 2, .recursiveWildcards⟩
      else .error ⟨position - 1, .recursiveWildcards⟩
    else if c == '[' then
      match bracket? t with
      | some (token, rest) =>
        parseFrom n (position + 1 + (t.length - rest.length)) (some ']') (token :: done) rest
      | none => .error ⟨position, .range⟩
    else parseFrom n (position + 1) (some c) (.char c :: done) t

structure Pattern where
  tokens : List Token
  deriving DecidableEq, Repr

namespace Pattern

def parse (t : Text) : Except Error Pattern := (parseFrom t.length 0 none [] t).map Pattern.mk

/-- The pattern reaches into directories of any depth. -/
def isRecursive (p : Pattern) : Bool := p.tokens.contains .components

/-- The text that a pattern without wildcards stands for. -/
def literal? (p : Pattern) : Option Text :=
  p.tokens.mapM fun token =>
    match token with
    | .char c => some c
    | _ => none

end Pattern

def Member.has (c : Char) : Member → Bool
  | single d => c == d
  | range first last => first ≤ c && c ≤ last

def Token.accepts (c : Char) : Token → Bool
  | char d => c == d
  | anyChar => true
  | oneOf ms => ms.any (·.has c)
  | noneOf ms => !ms.any (·.has c)
  | anyText => false
  | components => false

/-- Try a matcher on a text and on what is left of it after each of its characters. -/
def anySuffix (m : Text → Bool) : Text → Bool
  | [] => m []
  | c :: t => m (c :: t) || anySuffix m t

/-- Try a matcher on what is left of a text behind each slash, and at its end. -/
def anyComponentSuffix (m : Text → Bool) : Text → Bool
  | [] => m []
  | c :: t => (c == '/' && m t) || anyComponentSuffix m t

def matchesAll : List Token → Text → Bool
  | [], t => t.isEmpty
  | .anyText :: ts, t => anySuffix (matchesAll ts) t
  | .components :: ts, t => matchesAll ts t || anyComponentSuffix (matchesAll ts) t
  | _ :: _, [] => false
  | token :: ts, c :: t => token.accepts c && matchesAll ts t

namespace Pattern

def accepts (p : Pattern) (t : Text) : Bool := matchesAll p.tokens t

end Pattern

end DocCoverage.Glob
