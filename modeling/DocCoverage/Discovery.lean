import DocCoverage.Files.Expand

/-!
# Finding the files to analyse

Inputs are files, directories or glob patterns. A directory is searched for source files at any
depth; paths that an exclusion pattern matches are passed over, with everything below them. Each
real directory is searched once, so that links cannot lead in circles.
-/
namespace DocCoverage

structure PathFilter where
  patterns : List Glob.Pattern

inductive FilterError where
  | badPattern (pattern : Text) (error : Glob.Error)
  | unreadable (path : Text) (error : FileError)
  | inFile (path : Text) (pattern : Text) (error : Glob.Error)
  deriving DecidableEq, Repr

def FilterError.message : FilterError → Text
  | badPattern pattern e => "invalid exclude pattern: " ++ pattern ++ ": " ++ e.message
  | unreadable path e => "failed to read exclude file " ++ path ++ ": " ++ e.message
  | inFile path pattern e =>
    "in exclude file " ++ path ++ ": invalid exclude pattern: " ++ pattern ++ ": " ++ e.message

namespace PathFilter

/-- The first pattern that is not well formed, or all of them. -/
def parsePatterns : List Text → Except (Text × Glob.Error) (List Glob.Pattern)
  | [] => .ok []
  | t :: ts =>
    match Glob.Pattern.parse t with
    | .error e => .error (t, e)
    | .ok p =>
      match parsePatterns ts with
      | .error e => .error e
      | .ok ps => .ok (p :: ps)

def ofPatterns (ts : List Text) : Except FilterError PathFilter :=
  match parsePatterns ts with
  | .ok ps => .ok ⟨ps⟩
  | .error (t, e) => .error (.badPattern t e)

/-- The patterns of a pattern file: one on each line, with a hash sign before a comment. -/
def linesOf (t : Text) : List Text :=
  ((Text.splitOn '\n' t).map fun line => Text.trim (line.takeWhile (· != '#'))).filter
    (!·.isEmpty)

def extend (f : PathFilter) (fs : FileTree) (path : Text) : Except FilterError PathFilter :=
  match fs.readText path with
  | .error e => .error (.unreadable path e)
  | .ok t =>
    match parsePatterns (linesOf t) with
    | .ok ps => .ok ⟨f.patterns ++ ps⟩
    | .error (t, e) => .error (.inFile path t e)

def extendAll (fs : FileTree) : PathFilter → List Text → Except FilterError PathFilter
  | f, [] => .ok f
  | f, path :: paths =>
    match f.extend fs path with
    | .error e => .error e
    | .ok f => extendAll fs f paths

/-- A pattern matches the whole path or its last name. -/
def excludes (f : PathFilter) (path : Text) : Bool :=
  f.patterns.any fun p =>
    p.accepts path ||
      match Path.fileName path with
      | some name => p.accepts name
      | none => false

end PathFilter

namespace Discovery

inductive Error where
  | badPattern (input : Text) (error : Glob.Error)
  | unresolved (dir : Text) (error : FileError)
  | unlisted (dir : Text) (error : FileError)
  deriving DecidableEq, Repr

def Error.message : Error → Text
  | badPattern input e => "invalid glob pattern: " ++ input ++ ": " ++ e.message
  | unresolved dir e => "failed to resolve " ++ dir ++ ": " ++ e.message
  | unlisted dir e => "failed to read directory: " ++ dir ++ ": " ++ e.message

/-- The real directories already searched and the files found, the last first. -/
structure Progress where
  visited : List RealPath
  files : List Text

def Progress.add (p : Progress) (path : Text) : Progress := { p with files := path :: p.files }

def isSource (path : Text) : Bool := Path.extension path == some "py".toList

/-- Take up the entries of a directory in turn, with `enter` to search the directories. -/
def visitAll (fs : FileTree) (filter : PathFilter)
    (enter : Progress → Text → Except Error Progress) :
    Progress → List Text → Except Error Progress
  | p, [] => .ok p
  | p, path :: paths =>
    if filter.excludes path then visitAll fs filter enter p paths
    else if fs.isDirectory path then
      match enter p path with
      | .error e => .error e
      | .ok p => visitAll fs filter enter p paths
    else if isSource path then visitAll fs filter enter (p.add path) paths
    else visitAll fs filter enter p paths

/-- Search a directory. Each directory inside another one is a new real directory, so that `depth`
need not exceed their number. -/
def walk (fs : FileTree) (filter : PathFilter) :
    (depth : Nat) → Progress → Text → Except Error Progress
  | 0, p, _ => .ok p
  | n + 1, p, dir =>
    match fs.realPath dir with
    | .error e => .error (.unresolved dir e)
    | .ok real =>
      if p.visited.contains real then .ok p
      else
        match fs.list dir with
        | .error e => .error (.unlisted dir e)
        | .ok names =>
          visitAll fs filter (walk fs filter n) { p with visited := real :: p.visited }
            (names.map (Path.join dir))

/-- A depth that no search exceeds. -/
def depthFor (fs : FileTree) : Nat := fs.entries.length + 2

def takeMatches (fs : FileTree) (filter : PathFilter) :
    Progress → List Text → Except Error Progress
  | p, [] => .ok p
  | p, path :: paths =>
    if filter.excludes path then takeMatches fs filter p paths
    else if fs.isDirectory path then
      match walk fs filter (depthFor fs) p path with
      | .error e => .error e
      | .ok p => takeMatches fs filter p paths
    else if fs.isFile path then takeMatches fs filter (p.add path) paths
    else takeMatches fs filter p paths

def takeInput (fs : FileTree) (filter : PathFilter) (p : Progress) (input : Text) :
    Except Error Progress :=
  if fs.isFile input then .ok (if filter.excludes input then p else p.add input)
  else if fs.isDirectory input then walk fs filter (depthFor fs) p input
  else
    match Glob.expand fs input with
    | .error e => .error (.badPattern input e)
    | .ok found => takeMatches fs filter p found

def takeInputs (fs : FileTree) (filter : PathFilter) :
    Progress → List Text → Except Error Progress
  | p, [] => .ok p
  | p, input :: inputs =>
    match takeInput fs filter p input with
    | .error e => .error e
    | .ok p => takeInputs fs filter p inputs

/-- The files that the inputs stand for, in increasing order of their paths. -/
def collect (fs : FileTree) (filter : PathFilter) (inputs : List Text) :
    Except Error (List Text) :=
  match takeInputs fs filter ⟨[], []⟩ inputs with
  | .error e => .error e
  | .ok p => .ok (Path.sorted p.files.reverse)

end Discovery

end DocCoverage
