import DocCoverage.Pattern.Escape

/-!
# Bracketed classes

A bracketed class is a union of characters, ranges, named classes and further bracketed classes,
combined from left to right by intersection, difference and symmetric difference. Beside the set,
the reader gives the nesting depth of what it read.
-/
namespace DocCoverage.Pattern

/-- A set with the depth to which its description is nested. -/
structure NestedSet where
  set : CharSet
  depth : Nat

inductive SetOp where
  | inter
  | diff
  | symmDiff

def SetOp.apply : SetOp → CharSet → CharSet → CharSet
  | inter => .inter
  | diff => .diff
  | symmDiff => .symmDiff

def asciiClass? (name : Text) : Option CharSet :=
  if name == "alnum" then some (.ranges [(0x30, 0x39), (0x41, 0x5a), (0x61, 0x7a)])
  else if name == "alpha" then some (.ranges [(0x41, 0x5a), (0x61, 0x7a)])
  else if name == "ascii" then some (.ranges [(0, 0x7f)])
  else if name == "blank" then some (.ranges [(0x09, 0x09), (0x20, 0x20)])
  else if name == "cntrl" then some (.ranges [(0, 0x1f), (0x7f, 0x7f)])
  else if name == "digit" then some asciiDigit
  else if name == "graph" then some (.ranges [(0x21, 0x7e)])
  else if name == "lower" then some (.ranges [(0x61, 0x7a)])
  else if name == "print" then some (.ranges [(0x20, 0x7e)])
  else if name == "punct" then
    some (.ranges [(0x21, 0x2f), (0x3a, 0x40), (0x5b, 0x60), (0x7b, 0x7e)])
  else if name == "space" then some asciiBlank
  else if name == "upper" then some (.ranges [(0x41, 0x5a)])
  else if name == "word" then some asciiWord
  else if name == "xdigit" then some (.ranges [(0x30, 0x39), (0x41, 0x46), (0x61, 0x66)])
  else none

/-- An ASCII class `[:name:]` behind its opening bracket. -/
def Flags.asciiClass? (f : Flags) (t : Text) : Option (CharSet × Text) := do
  let t ← Text.dropPrefix? ":" t
  let (negated, t) := match Text.dropPrefix? "^" t with
    | some t => (true, t)
    | none => (false, t)
  let (name, rest) := Text.breakAt (· == ':') t
  let rest ← Text.dropPrefix? ":]" rest
  let s ← Pattern.asciiClass? name
  if negated then return (← f.compl? s, rest) else return (s, rest)

/-- A literal of a class. Without Unicode it has to be ASCII. -/
def Flags.classLiteral? (f : Flags) (c : Char) : Option Char :=
  if f.unicode || Text.isAscii c then some c else none

/-- One end of a range, or a single item. -/
def Flags.classItem? (f : Flags) (ps : Properties) : Text → Option (Primitive × Text)
  | [] => none
  | '\\' :: t => f.escape? ps t
  | c :: t => some (.literal c false, t)

/-- The set of an item that is not part of a range. -/
def Flags.itemSet? (f : Flags) : Primitive → Option CharSet
  | .literal c _ => (f.classLiteral? c).map .single
  | .set s => some s
  | .look _ => none

/-- An item or a range. A hyphen makes a range unless a bracket or another hyphen follows. -/
def Flags.classRange? (f : Flags) (ps : Properties) (t : Text) : Option (CharSet × Text) := do
  let (first, rest) ← f.classItem? ps t
  let rest := f.skip rest
  match rest with
  | [] => none
  | '-' :: after =>
    let next := (f.skip after).head?
    if next == some ']' || next == some '-' then return (← f.itemSet? first, rest)
    else
      let (last, rest) ← f.classItem? ps (f.skip after)
      match first, last with
      | .literal a _, .literal b _ =>
        let a ← f.classLiteral? a
        let b ← f.classLiteral? b
        if a ≤ b then return (.ranges [(a.toNat, b.toNat)], rest) else none
      | _, _ => none
  | rest => return (← f.itemSet? first, rest)

/-- The items of a class, the last first, and what an operator has combined before them. -/
structure ClassReading where
  items : List NestedSet
  left : Option (SetOp × NestedSet)
  negated : Bool

namespace ClassReading

def union (r : ClassReading) : NestedSet :=
  match r.items with
  | [] => ⟨.empty, 0⟩
  | [s] => s
  | items =>
    ⟨items.foldr (fun s acc => .union acc s.set) .empty,
      items.foldr (fun s d => max s.depth d) 0 + 1⟩

def push (r : ClassReading) (s : NestedSet) : ClassReading := { r with items := s :: r.items }

/-- The union of the items, combined with what stands on the left of the operator. -/
def combined (f : Flags) (r : ClassReading) : NestedSet :=
  let right := r.union
  match r.left with
  | none => right
  | some (op, left) =>
    let fold (s : CharSet) : CharSet := if f.caseless then .caseless s else s
    ⟨op.apply (fold left.set) (fold right.set), max left.depth right.depth + 1⟩

def operator (f : Flags) (r : ClassReading) (op : SetOp) : ClassReading :=
  { r with items := [], left := some (op, r.combined f) }

/-- The finished class. -/
def close? (f : Flags) (r : ClassReading) : Option NestedSet := do
  let s := r.combined f
  let folded := if f.caseless then CharSet.caseless s.set else s.set
  let set ← if r.negated then f.compl? folded else some folded
  return ⟨set, s.depth + 1⟩

end ClassReading

/-- Hyphens at the front of a class stand for themselves. -/
def Flags.leadingHyphens (f : Flags) : (fuel : Nat) → ClassReading → Text → ClassReading × Text
  | 0, r, t => (r, t)
  | n + 1, r, t =>
    match t with
    | '-' :: t => leadingHyphens f n (r.push ⟨.single '-', 0⟩) (f.skip t)
    | t => (r, t)

/-- The front of a class behind its bracket: a negation, hyphens, or a closing bracket that stands
for itself. -/
def Flags.classFront (f : Flags) (t : Text) : ClassReading × Text :=
  let t := f.skip t
  let (negated, t) := match t with
    | '^' :: t => (true, f.skip t)
    | t => (false, t)
  let (r, t) := f.leadingHyphens t.length ⟨[], none, negated⟩ t
  match r.items, t with
  | [], ']' :: t => (r.push ⟨.single ']', 0⟩, f.skip t)
  | _, t => (r, t)

/-- Read the rest of a class, up to and with its closing bracket. -/
def Flags.classRest? (f : Flags) (ps : Properties) :
    (fuel : Nat) → ClassReading → Text → Option (NestedSet × Text)
  | 0, _, _ => none
  | n + 1, r, t =>
    match f.skip t with
    | [] => none
    | ']' :: t => do return (← r.close? f, t)
    | '[' :: t =>
      match f.asciiClass? t with
      | some (s, t) => classRest? f ps n (r.push ⟨s, 0⟩) t
      | none =>
        let (inner, t) := f.classFront t
        match classRest? f ps n inner t with
        | none => none
        | some (s, t) => classRest? f ps n (r.push s) t
    | '&' :: '&' :: t => classRest? f ps n (r.operator f .inter) t
    | '-' :: '-' :: t => classRest? f ps n (r.operator f .diff) t
    | '~' :: '~' :: t => classRest? f ps n (r.operator f .symmDiff) t
    | t =>
      match f.classRange? ps t with
      | none => none
      | some (s, t) => classRest? f ps n (r.push ⟨s, 0⟩) t

/-- A bracketed class behind its opening bracket. -/
def Flags.bracket? (f : Flags) (ps : Properties) (t : Text) : Option (NestedSet × Text) :=
  let (r, t) := f.classFront t
  f.classRest? ps (t.length + 1) r t

end DocCoverage.Pattern
