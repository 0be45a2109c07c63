import DocCoverage.Pattern.Expr

/-!
# Matching patterns

A place in a text is a state; an expression sends a state to the states in which a match of it
can end, the preferred one first and each place once. Repetition explores the places it can reach
depth first and enters none of them twice. The first state that a whole expression reaches is the
match that ordered alternation and greed ask for.
-/
namespace DocCoverage.Pattern

/-- A place in the text that is searched. -/
structure State where
  /-- Characters before the place. -/
  pos : Nat
  /-- The character right before the place. -/
  prev : Option Char
  /-- The text behind the place. -/
  rest : Text
  /-- The texts of the named groups, the latest first. -/
  groups : List (Text × Text)
  deriving DecidableEq, Repr

namespace State

def start (t : Text) : State := ⟨0, none, t, []⟩

def next? (st : State) : Option State :=
  match st.rest with
  | [] => none
  | c :: rest => some { st with pos := st.pos + 1, prev := some c, rest := rest }

end State

def CharSet.has (s : CharSet) : Option Char → Bool
  | none => false
  | some c => s.contains c

def Look.holds (l : Look) (prev next : Option Char) : Bool :=
  match l with
  | textStart => prev.isNone
  | textEnd => next.isNone
  | lineStart => prev.isNone || prev == some '\n'
  | lineEnd => next.isNone || next == some '\n'
  | anyLineStart =>
    prev.isNone || prev == some '\n' || (prev == some '\r' && next != some '\n')
  | anyLineEnd =>
    next.isNone || next == some '\r' || (next == some '\n' && prev != some '\r')
  | wordBoundary w => w.has prev != w.has next
  | notWordBoundary w => w.has prev == w.has next
  | wordStart w => !w.has prev && w.has next
  | wordEnd w => w.has prev && !w.has next
  | wordStartHalf w => !w.has prev
  | wordEndHalf w => !w.has next

/-- A set of places, as the bits of a number. -/
abbrev Places := Nat

def Places.insert (s : Places) (n : Nat) : Places := s ||| (1 <<< n)

/-- Keep the first state of each place. -/
def firstsFrom : Places → List State → List State
  | _, [] => []
  | seen, st :: sts =>
    if seen.testBit st.pos then firstsFrom seen sts
    else st :: firstsFrom (Places.insert seen st.pos) sts

def firsts (sts : List State) : List State := firstsFrom 0 sts

/-- Run a step on every state, in order. -/
def throughAll (step : State → List State) (sts : List State) : List State :=
  firsts (sts.flatMap step)

/-- The states found so far, the last first, and the keys already explored. -/
structure Frontier where
  found : List State
  seen : Places

def Frontier.emit (f : Frontier) (st : State) : Frontier := { f with found := st :: f.found }

/-- Explore the states that repeating `body` up to `n` times can reach. A key that was explored
before is not explored again. -/
def explore (body : State → List State) (greedy : Bool) (key : Nat → State → Nat) :
    (n : Nat) → Frontier → State → Frontier
  | 0, f, st => f.emit st
  | n + 1, f, st =>
    if f.seen.testBit (key (n + 1) st) then f
    else
      let f := { f with seen := Places.insert f.seen (key (n + 1) st) }
      if greedy then ((body st).foldl (explore body greedy key n) f).emit st
      else (body st).foldl (explore body greedy key n) (f.emit st)

def upTo (body : State → List State) (greedy : Bool) (n : Nat) (st : State) : List State :=
  let width := st.pos + st.rest.length + 1
  firsts (explore body greedy (fun level s => level * width + s.pos) n ⟨[], 0⟩ st).found.reverse

/-- At least one copy of `body`. An empty first copy ends the repetition. -/
def oneOrMore (body : State → List State) (greedy : Bool) (st : State) : List State :=
  let visit (f : Frontier) (s : State) : Frontier :=
    if s.pos == st.pos then f.emit s
    else explore body greedy (fun _ s => s.pos) (st.rest.length + 2) f s
  firsts ((body st).foldl visit ⟨[], 0⟩).found.reverse

def anyNumber (body : State → List State) (greedy : Bool) (st : State) : List State :=
  if greedy then firsts (oneOrMore body greedy st ++ [st])
  else firsts (st :: oneOrMore body greedy st)

def exactly (body : State → List State) : (n : Nat) → List State → List State
  | 0, sts => sts
  | n + 1, sts => exactly body n (throughAll body sts)

namespace Expr

/-- The states in which a match can end, the preferred one first. -/
def ends : Expr → State → List State
  | empty, st => [st]
  | chars s, st =>
    match st.next? with
    | none => []
    | some st' => if s.has st'.prev then [st'] else []
  | look l, st => if l.holds st.prev st.rest.head? then [st] else []
  | cat a b, st => throughAll b.ends (a.ends st)
  | alt a b, st => firsts (a.ends st ++ b.ends st)
  | rep body least (some most) greedy, st =>
    throughAll (upTo body.ends greedy (most - least)) (exactly body.ends least [st])
  | rep body 0 none greedy, st => anyNumber body.ends greedy st
  | rep body (least + 1) none greedy, st =>
    throughAll (oneOrMore body.ends greedy) (exactly body.ends least [st])
  | group none body, st => body.ends st
  | group (some name) body, st =>
    (body.ends st).map fun st' =>
      { st' with groups := (name, st.rest.take (st'.pos - st.pos)) :: st'.groups }

/-- The preferred match that starts at the given place. -/
def matchAt (e : Expr) (st : State) : Option State := (e.ends st).head?

end Expr

/-- A match: where it starts, where it ends and what its groups hold. -/
structure Found where
  start : Nat
  stop : State

/-- The first match at or behind a place; `n` is the number of places to try. -/
def Expr.searchFrom (e : Expr) : (n : Nat) → State → Option Found
  | 0, _ => none
  | n + 1, st =>
    match e.matchAt st with
    | some st' => some ⟨st.pos, st'⟩
    | none =>
      match st.next? with
      | none => none
      | some st' => searchFrom e n st'

def Expr.search (e : Expr) (st : State) : Option Found :=
  e.searchFrom (st.rest.length + 1) { st with groups := [] }

/-- The next match behind a match that ended at `st`; an empty match right there does not count. -/
def Expr.searchNext (e : Expr) (st : State) : Option Found :=
  match e.search st with
  | none => none
  | some f =>
    if f.start == st.pos && f.stop.pos == st.pos then
      match st.next? with
      | none => none
      | some st' => e.search st'
    else some f

/-- The matches that follow each other behind a match that ended at `st`, at most `n` of them. -/
def Expr.matchesFrom (e : Expr) : (n : Nat) → State → List Found
  | 0, _ => []
  | n + 1, st =>
    match e.searchNext st with
    | none => []
    | some f => f :: matchesFrom e n f.stop

/-- All matches in a text, from left to right, none overlapping another. -/
def Expr.findAll (e : Expr) (t : Text) : List Found :=
  match e.search (State.start t) with
  | none => []
  | some f => f :: e.matchesFrom (t.length + 1) f.stop

def Expr.isMatch (e : Expr) (t : Text) : Bool := (e.search (State.start t)).isSome

def Found.group? (f : Found) (name : Text) : Option Text := f.stop.groups.lookup name

end DocCoverage.Pattern
