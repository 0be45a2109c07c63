import DocCoverage.Files.Glob
import DocCoverage.Files.Tree

/-!
# Expanding glob patterns in a file tree

A pattern is cut at its slashes, and each part is matched against the names of one directory. Parts
without wildcards are looked up directly. The answer lists the paths in the order of a walk that
visits each directory's names in increasing order; links to directories are entered.
-/
namespace DocCoverage.Glob

/-- A path found on the way. -/
structure Place where
  path : Text
  isDirectory : Bool
  /-- Nothing is left to be matched. -/
  settled : Bool

def place (fs : FileTree) (path : Text) (settled : Bool) : Place :=
  ⟨path, fs.isDirectory path, settled⟩

/-- The path is the working directory. -/
def isHere (path : Text) : Bool := Path.same path "."

/-- A name below a directory; the working directory is left out of the spelling. -/
def below (dir name : Text) : Text := if isHere dir then name else Path.join dir name

/-- The places below a place that the first of the patterns asks for, with the patterns that are
to be matched there. A name without wildcards is settled by being there. -/
def step (fs : FileTree) : List Pattern → Place → List (Place × List Pattern)
  | [], _ => []
  | p :: ps, at_ =>
    let add (path : Text) : List (Place × List Pattern) :=
      match ps with
      | [] => [(place fs path true, [])]
      | ps => step fs ps (place fs path false)
    match p.literal? with
    | some name =>
      let path := below at_.path name
      let special := name == "." || name == ".."
      if (special && at_.isDirectory) || (!special && (fs.exists path || fs.hasEntry path)) then
        add path
      else []
    | none =>
      if !at_.isDirectory then []
      else
        let names := match fs.list at_.path with
          | .ok names => names
          | .error _ => []
        let dots : List Text := if p.tokens.head? == some (.char '.') then ["..", "."] else []
        (dots.filter p.accepts).flatMap (fun dot => add (Path.join at_.path dot)) ++
          names.map fun name => (place fs (below at_.path name) false, p :: ps)

/-- The patterns behind a row of recursive ones. -/
def dropRecursive : List Pattern → List Pattern
  | [] => []
  | p :: ps => if p.isRecursive then dropRecursive ps else p :: ps

/-- The last of a row of recursive patterns and those behind it. -/
def lastRecursive : List Pattern → List Pattern
  | p :: q :: ps => if q.isRecursive then lastRecursive (q :: ps) else p :: q :: ps
  | ps => ps

/-- The paths that a place leads to; `depth` bounds how far down they lie. -/
def paths (fs : FileTree) (directoriesOnly : Bool) :
    (depth : Nat) → Place × List Pattern → List Text
  | 0, _ => []
  | n + 1, (at_, ps) =>
    let wantedHere := !directoriesOnly || at_.isDirectory
    let matchName (ps : List Pattern) : List Text :=
      match ps, Path.fileName at_.path with
      | p :: rest, some name =>
        if !p.accepts name then []
        else
          match rest with
          | [] => if wantedHere then [at_.path] else []
          | rest => (step fs rest at_).flatMap (paths fs directoriesOnly n)
      | _, _ => []
    if at_.settled then (if wantedHere then [at_.path] else [])
    else
      match ps with
      | [] => []
      | p :: _ =>
        if !p.isRecursive then matchName ps
        else
          let here := match dropRecursive ps with
            | [] => if at_.isDirectory then [at_.path] else []
            | rest => matchName rest
          if at_.isDirectory then
            here ++ (step fs (lastRecursive ps) at_).flatMap (paths fs directoriesOnly n)
          else here

/-- The parts of a pattern between slashes. A slash at its end makes no part of its own. -/
def parts (t : Text) : List Text :=
  let ps := Text.splitOn '/' t
  if ps.getLast? == some [] && 1 < ps.length then ps.dropLast else ps

def parseAll : List Text → Except Error (List Pattern)
  | [] => .ok []
  | t :: ts =>
    match Pattern.parse t with
    | .error e => .error e
    | .ok p =>
      match parseAll ts with
      | .error e => .error e
      | .ok ps => .ok (p :: ps)

/-- The paths that match a pattern. -/
def expand (fs : FileTree) (t : Text) : Except Error (List Text) :=
  match Pattern.parse t with
  | .error e => .error e
  | .ok _ =>
    let relative := t.dropWhile (· == '/')
    match parseAll (parts relative) with
    | .error e => .error e
    | .ok ps =>
      let scope : Text := if Path.isAbsolute t then "/" else "."
      let depth := (fs.entries.length + 2) * (fs.limits.links + 2) + ps.length
      .ok ((step fs ps (place fs scope false)).flatMap
        (paths fs (t.getLast? == some '/') depth))

end DocCoverage.Glob
