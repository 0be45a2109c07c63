import DocCoverage.Pattern.Bracket

/-!
# Reading patterns

A pattern is read from left to right into alternatives of sequences. Groups recurse; every step
takes at least one character, so the length of the pattern bounds the recursion. There is no
answer for a text that is not a well-formed pattern, that nests too deep or that would grow too
large when its repetitions are written out.
-/
namespace DocCoverage.Pattern

/-- The deepest nesting of groups, repetitions, sequences and classes. -/
def nestLimit : Nat := 250

/-- The largest size of a pattern with its repetitions written out. -/
def sizeLimit : Nat := 10 * Nat.pow 2 20

/-- An expression with the depth to which its description is nested. -/
structure Node where
  expr : Expr
  depth : Nat

/-- A member of a sequence; a setting of flags cannot be repeated. -/
structure Item where
  node : Node
  repeatable : Bool

/-- The alternatives and members read so far, the last first. -/
structure Reading where
  branches : List Node
  items : List Item

namespace Reading

def start : Reading := ⟨[], []⟩

def push (r : Reading) (e : Expr) (depth : Nat) : Reading :=
  { r with items := ⟨⟨e, depth⟩, true⟩ :: r.items }

/-- A setting of flags takes a place in the sequence and matches nothing. -/
def pushFlags (r : Reading) : Reading := { r with items := ⟨⟨.empty, 0⟩, false⟩ :: r.items }

def sequence (r : Reading) : Node :=
  match r.items with
  | [] => ⟨.empty, 0⟩
  | [i] => i.node
  | items =>
    ⟨Expr.sequence (items.reverse.map (·.node.expr)),
      items.foldl (fun d i => max d i.node.depth) 0 + 1⟩

def nextBranch (r : Reading) : Reading := ⟨r.sequence :: r.branches, []⟩

def finish (r : Reading) : Node :=
  match r.branches with
  | [] => r.sequence
  | branches =>
    let all := r.sequence :: branches
    ⟨Expr.choice (all.reverse.map (·.expr)), all.foldl (fun d n => max d n.depth) 0 + 1⟩

/-- Repeat the last member of the sequence. -/
def repeatLast? (r : Reading) (least : Nat) (most : Option Nat) (greedy : Bool) :
    Option Reading :=
  match r.items with
  | ⟨node, true⟩ :: items =>
    some { r with items := ⟨⟨.rep node.expr least most greedy, node.depth + 1⟩, true⟩ :: items }
  | _ => none

end Reading

/-- The place in the pattern: what is left, the flags in force and the group names in use. -/
structure Source where
  rest : Text
  flags : Flags
  names : List Text

/-- A question mark behind a repetition turns its greed around. -/
def Flags.greed (f : Flags) (t : Text) : Bool × Text :=
  match t with
  | '?' :: t => (f.swapGreed, t)
  | t => (!f.swapGreed, t)

/-- A count of a repetition, with blanks around it; counts fit 32 bits. -/
def Flags.count? (f : Flags) (t : Text) : Option (Nat × Text) :=
  let t := t.dropWhile Text.isBlank
  let (digits, rest) := f.collectAll Text.isAsciiDigit t
  let rest := f.skip (rest.dropWhile Text.isBlank)
  if digits.isEmpty then none
  else
    let n := digits.foldl (fun n d => n * 10 + (d.toNat - '0'.toNat)) 0
    if n < Nat.pow 2 32 then some (n, rest) else none

/-- The counts of a repetition behind its opening bracket, with the greed behind the closing
one. -/
def Flags.counts? (f : Flags) (t : Text) : Option (Nat × Option Nat × Bool × Text) := do
  let (least, rest) ← f.count? (f.skip t)
  let (most, rest) ← match rest with
    | ',' :: rest =>
      match f.skip rest with
      | '\x7d' :: rest => some (none, '\x7d' :: rest)
      | rest => (f.count? rest).map fun (n, rest) => (some n, rest)
    | rest => some (some least, rest)
  let rest ← Text.dropPrefix? ['\x7d'] rest
  let (greedy, rest) := f.greed (f.skip rest)
  match most with
  | some n => if n < least then none else return (least, most, greedy, rest)
  | none => return (least, none, greedy, rest)

/-- What opens behind a round bracket. -/
inductive GroupFront where
  | flags (f : Flags)
  | group (name : Option Text) (f : Flags)

def isNameStart (c : Char) : Bool := c == '_' || Text.isAlphabetic c

def isNameRest (c : Char) : Bool :=
  c == '_' || c == '.' || c == '[' || c == ']' || Text.isAlphanumeric c

def groupName? (t : Text) : Option (Text × Text) :=
  match Text.breakAt (· == '>') t with
  | (c :: cs, '>' :: rest) =>
    if isNameStart c && cs.all isNameRest then some (c :: cs, rest) else none
  | _ => none

/-- The front of a group behind its round bracket. Look-around is refused. -/
def Source.groupFront? (src : Source) : Option (GroupFront × Source) :=
  let f := src.flags
  let t := f.skip src.rest
  let named (t : Text) : Option (GroupFront × Source) := do
    let (name, rest) ← groupName? t
    if src.names.contains name then none
    return (.group (some name) f, ⟨rest, f, name :: src.names⟩)
  match t with
  | '?' :: '=' :: _ => none
  | '?' :: '!' :: _ => none
  | '?' :: '<' :: '=' :: _ => none
  | '?' :: '<' :: '!' :: _ => none
  | '?' :: 'P' :: '<' :: t => named t
  | '?' :: '<' :: t => named t
  | '?' :: t =>
    let (letters, rest) := Text.breakAt (fun c => c == ':' || c == ')') t
    match rest with
    | ':' :: rest => do
      let f' ← f.update? letters
      return (.group none f', ⟨rest, f', src.names⟩)
    | ')' :: rest => do
      if letters.isEmpty then none
      let f' ← f.update? letters
      return (.flags f', ⟨rest, f', src.names⟩)
    | _ => none
  | t => some (.group none f, ⟨t, f, src.names⟩)

/-- The expression of a primitive. Without Unicode a byte has to be ASCII. -/
def Flags.primitive? (f : Flags) : Primitive → Option Expr
  | .literal c byte =>
    if byte && !f.unicode && !Text.isAscii c then none
    else some (.chars (if f.caseless then .caseless (.single c) else .single c))
  | .set s => some (.chars s)
  | .look l => some (.look l)

def Flags.dot? (f : Flags) : Option Expr :=
  if !f.unicode then none
  else some (.chars (
    if f.dotAll then .all
    else if f.crlf then .compl (.ofList ['\r', '\n'])
    else .compl (.single '\n')))

def Flags.caret (f : Flags) : Look :=
  if !f.multiLine then .textStart else if f.crlf then .anyLineStart else .lineStart

def Flags.dollar (f : Flags) : Look :=
  if !f.multiLine then .textEnd else if f.crlf then .anyLineEnd else .lineEnd

/-- Read up to the end of the pattern or to a closing bracket, which is left in place. -/
def readAlternatives? (ps : Properties) :
    (fuel : Nat) → Source → Reading → Option (Node × Source)
  | 0, _, _ => none
  | n + 1, src, r =>
    let f := src.flags
    match f.skip src.rest with
    | [] => some (r.finish, { src with rest := [] })
    | ')' :: t => some (r.finish, { src with rest := ')' :: t })
    | '(' :: t =>
      match Source.groupFront? { src with rest := t } with
      | none => none
      | some (.flags _, src) => readAlternatives? ps n src r.pushFlags
      | some (.group name _, inner) =>
        match readAlternatives? ps n inner Reading.start with
        | some (node, ⟨')' :: t, _, names⟩) =>
          readAlternatives? ps n ⟨t, f, names⟩ (r.push (.group name node.expr) (node.depth + 1))
        | _ => none
    | '|' :: t => readAlternatives? ps n { src with rest := t } r.nextBranch
    | '[' :: t =>
      match f.bracket? ps t with
      | none => none
      | some (s, t) => readAlternatives? ps n { src with rest := t } (r.push (.chars s.set) s.depth)
    | '?' :: t =>
      let (greedy, t) := f.greed t
      match r.repeatLast? 0 (some 1) greedy with
      | none => none
      | some r => readAlternatives? ps n { src with rest := t } r
    | '*' :: t =>
      let (greedy, t) := f.greed t
      match r.repeatLast? 0 none greedy with
      | none => none
      | some r => readAlternatives? ps n { src with rest := t } r
    | '+' :: t =>
      let (greedy, t) := f.greed t
      match r.repeatLast? 1 none greedy with
      | none => none
      | some r => readAlternatives? ps n { src with rest := t } r
    | '\x7b' :: t =>
      match f.counts? t with
      | none => none
      | some (least, most, greedy, t) =>
        match r.repeatLast? least most greedy with
        | none => none
        | some r => readAlternatives? ps n { src with rest := t } r
    | '\\' :: t =>
      match f.escape? ps t with
      | none => none
      | some (p, t) =>
        match f.primitive? p with
        | none => none
        | some e => readAlternatives? ps n { src with rest := t } (r.push e 0)
    | '.' :: t =>
      match f.dot? with
      | none => none
      | some e => readAlternatives? ps n { src with rest := t } (r.push e 0)
    | '^' :: t => readAlternatives? ps n { src with rest := t } (r.push (.look f.caret) 0)
    | '$' :: t => readAlternatives? ps n { src with rest := t } (r.push (.look f.dollar) 0)
    | c :: t =>
      match f.primitive? (.literal c false) with
      | none => none
      | some e => readAlternatives? ps n { src with rest := t } (r.push e 0)

/-- The expression of a whole pattern. -/
def read? (ps : Properties) (t : Text) : Option Node :=
  match readAlternatives? ps (t.length + 1) ⟨t, {}, []⟩ Reading.start with
  | some (node, ⟨[], _, _⟩) => some node
  | _ => none

def parse? (lib : Library) (t : Text) : Option Expr :=
  match read? lib.property? t with
  | some node =>
    if node.depth ≤ nestLimit && lib.size node.expr ≤ sizeLimit then some node.expr else none
  | none => none

end DocCoverage.Pattern
