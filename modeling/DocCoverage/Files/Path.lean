import DocCoverage.Text.Order

/-!
# Paths

A path is a text of names with slashes between them. Two spellings are the same path when they
have the same components: doubled and trailing slashes do not count, and neither does a dot,
except at the front.
-/
namespace DocCoverage

inductive Component where
  | root
  | current
  | parent
  | name (t : Text)
  deriving DecidableEq, Repr

namespace Component

/-- The place of the sort of a component in the order of components. -/
def rank : Component → Nat
  | root => 0
  | current => 1
  | parent => 2
  | name _ => 3

def lt (a b : Component) : Bool :=
  match a, b with
  | name s, name t => Text.lt s t
  | a, b => a.rank < b.rank

end Component

namespace Path

/-- The pieces of a path between slashes, without the empty ones. -/
def pieces (p : Text) : List Text := (Text.splitOn '/' p).filter (!·.isEmpty)

/-- The components behind the front of a path, where a dot does not count. -/
def inner : List Text → List Component
  | [] => []
  | t :: ts =>
    if t == "." then inner ts
    else if t == ".." then .parent :: inner ts
    else .name t :: inner ts

def isAbsolute (p : Text) : Bool := p.head? == some '/'

def components (p : Text) : List Component :=
  if isAbsolute p then .root :: inner (pieces p)
  else
    match pieces p with
    | [] => []
    | t :: ts => if t == "." then .current :: inner ts else inner (t :: ts)

def ltComponents : List Component → List Component → Bool
  | _, [] => false
  | [], _ :: _ => true
  | a :: as, b :: bs => a.lt b || (a == b && ltComponents as bs)

def lt (p q : Text) : Bool := ltComponents (components p) (components q)

/-- Both spell one path. -/
def same (p q : Text) : Bool := components p == components q

/-- The last component, if it is a name. -/
def fileName (p : Text) : Option Text :=
  match (components p).getLast? with
  | some (.name t) => some t
  | _ => none

/-- What stands behind the last dot of the last name, unless nothing stands before it. -/
def extension (p : Text) : Option Text :=
  match fileName p with
  | none => none
  | some t =>
    match t.reverse.span (· != '.') with
    | (after, '.' :: _ :: _) => some after.reverse
    | _ => none

def join (dir name : Text) : Text :=
  if isAbsolute name then name
  else if dir.isEmpty || dir.getLast? == some '/' then dir ++ name
  else dir ++ "/" ++ name

/-- Put a path into an increasing list of distinct paths; of two spellings the first stays. -/
def insert (p : Text) : List Text → List Text
  | [] => [p]
  | q :: qs => if lt p q then p :: q :: qs else if same p q then q :: qs else q :: insert p qs

/-- The distinct paths of a list in increasing order. -/
def sorted (ps : List Text) : List Text := ps.foldl (fun s p => insert p s) []

end Path

end DocCoverage
