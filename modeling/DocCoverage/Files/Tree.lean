import DocCoverage.Files.Path
import DocCoverage.Files.Utf8

/-!
# File trees

A file tree gives the entries below its root, each under its real path: the names from the root
down, with no links on the way. Looking up a path starts at the root or in the working directory and
follows links; how long names and paths may be and how many links one path may take is limited.
-/
namespace DocCoverage

/-- The names from the root down. -/
abbrev RealPath := List Text

inductive Entry where
  | file (content : Bytes)
  | directory
  /-- A symbolic link with the path it points to. -/
  | link (target : Text)
  deriving DecidableEq, Repr

/-- What the system takes on to resolve one path. -/
structure PathLimits where
  /-- The longest name in bytes. -/
  name : Nat := 255
  /-- The longest path in bytes. -/
  path : Nat := 4095
  /-- The most links on the way. -/
  links : Nat := 40
  deriving DecidableEq, Repr

structure FileTree where
  entries : List (RealPath × Entry)
  /-- The working directory, in which relative paths start. -/
  here : RealPath
  limits : PathLimits := {}
  deriving DecidableEq, Repr

inductive FileError where
  | notFound
  | isDirectory
  | notDirectory
  | tooManyLinks
  | nameTooLong
  | notText
  deriving DecidableEq, Repr

def FileError.message : FileError → Text
  | notFound => "No such file or directory (os error 2)"
  | isDirectory => "Is a directory (os error 21)"
  | notDirectory => "Not a directory (os error 20)"
  | tooManyLinks => "Too many levels of symbolic links (os error 40)"
  | nameTooLong => "File name too long (os error 36)"
  | notText => "stream did not contain valid UTF-8"

namespace FileTree

/-- A tree with nothing but a working directory. -/
def empty : FileTree := ⟨[(["work"], .directory)], ["work"], {}⟩

/-- The entry at a real path; the root itself is a directory. -/
def entry? (fs : FileTree) (p : RealPath) : Option Entry :=
  if p.isEmpty then some .directory else fs.entries.lookup p

/-- Give a real path an entry, in place of the one it had. -/
def set (fs : FileTree) (p : RealPath) (e : Entry) : FileTree :=
  if (fs.entries.lookup p).isSome then
    { fs with entries := fs.entries.map fun (q, f) => if q == p then (q, e) else (q, f) }
  else { fs with entries := fs.entries ++ [(p, e)] }

@[simp] theorem here_set (fs : FileTree) (p : RealPath) (e : Entry) :
    (fs.set p e).here = fs.here := by
  unfold set
  split <;> rfl

@[simp] theorem limits_set (fs : FileTree) (p : RealPath) (e : Entry) :
    (fs.set p e).limits = fs.limits := by
  unfold set
  split <;> rfl

def erase (fs : FileTree) (p : RealPath) : FileTree :=
  { fs with entries := fs.entries.filter fun (q, _) => q != p }

/-- The name of an entry that lies directly in a directory. -/
def nameIn (dir p : RealPath) : Option Text :=
  match p.getLast? with
  | some name => if p.dropLast == dir then some name else none
  | none => none

/-- The names of the entries of a directory, in increasing order. -/
def namesIn (fs : FileTree) (dir : RealPath) : List Text :=
  Text.sorted (fs.entries.filterMap fun (p, _) => nameIn dir p)

/-- Go from a directory along names. A missing last name is an answer. A link on the way, or at the
end if `follow`, is handed to `onLink` with the names left behind it. The directory above the root
is the root itself. -/
def descend (fs : FileTree) (follow : Bool)
    (onLink : RealPath → Text → List Text → Except FileError RealPath) :
    RealPath → List Text → Except FileError RealPath
  | dir, [] => .ok dir
  | dir, t :: ts =>
    match fs.entry? dir with
    | some .directory =>
      if t == "." then descend fs follow onLink dir ts
      else if t == ".." then
        match fs.entry? dir.dropLast with
        | some .directory => descend fs follow onLink dir.dropLast ts
        | _ => .error .notDirectory
      else if fs.limits.name < Text.byteLength t then .error .nameTooLong
      else
        match fs.entry? (dir ++ [t]) with
        | none => if ts.isEmpty then .ok (dir ++ [t]) else .error .notFound
        | some (.link target) =>
          if ts.isEmpty && !follow then .ok (dir ++ [t]) else onLink dir target ts
        | some _ => descend fs follow onLink (dir ++ [t]) ts
    | _ => .error .notDirectory

/-- The names that a path asks for; a slash at its end asks for a directory. -/
def wanted (p : Text) : List Text :=
  if p.getLast? == some '/' then Path.pieces p ++ [['.']] else Path.pieces p

/-- Where a path starts that stands in a directory. -/
def origin (dir : RealPath) (p : Text) : RealPath := if Path.isAbsolute p then [] else dir

/-- Go along names, with the number of links that may still be followed. -/
def locateFrom (fs : FileTree) (follow : Bool) :
    (links : Nat) → RealPath → List Text → Except FileError RealPath
  | 0, dir, ts => descend fs follow (fun _ _ _ => .error .tooManyLinks) dir ts
  | n + 1, dir, ts =>
    descend fs follow
      (fun dir target ts =>
        if target.isEmpty then .error .notFound
        else locateFrom fs follow n (origin dir target) (wanted target ++ ts))
      dir ts

/-- The real path of a path, which need not be there as long as its directory is. -/
def locate (fs : FileTree) (follow : Bool) (p : Text) : Except FileError RealPath :=
  if p.isEmpty then .error .notFound
  else if fs.limits.path < Text.byteLength p then .error .nameTooLong
  else locateFrom fs follow fs.limits.links (origin fs.here p) (wanted p)

/-- The real path and entry of a path, with links followed. -/
def find (fs : FileTree) (p : Text) : Except FileError (RealPath × Entry) :=
  match fs.locate true p with
  | .error e => .error e
  | .ok r =>
    match fs.entry? r with
    | some e => .ok (r, e)
    | none => .error .notFound

/-- Something is there, or a link that leads nowhere. -/
def hasEntry (fs : FileTree) (p : Text) : Bool :=
  match fs.locate false p with
  | .error _ => false
  | .ok r => (fs.entry? r).isSome

def «exists» (fs : FileTree) (p : Text) : Bool := (fs.find p).isOk

def isFile (fs : FileTree) (p : Text) : Bool :=
  match fs.find p with
  | .ok (_, .file _) => true
  | _ => false

def isDirectory (fs : FileTree) (p : Text) : Bool :=
  match fs.find p with
  | .ok (_, .directory) => true
  | _ => false

def realPath (fs : FileTree) (p : Text) : Except FileError RealPath :=
  (fs.find p).map (·.1)

/-- The names in a directory, in increasing order. -/
def list (fs : FileTree) (p : Text) : Except FileError (List Text) :=
  match fs.find p with
  | .ok (r, .directory) => .ok (fs.namesIn r)
  | .ok _ => .error .notDirectory
  | .error e => .error e

def read (fs : FileTree) (p : Text) : Except FileError Bytes :=
  match fs.find p with
  | .ok (_, .file content) => .ok content
  | .ok _ => .error .isDirectory
  | .error e => .error e

def readText (fs : FileTree) (p : Text) : Except FileError Text :=
  match fs.read p with
  | .error e => .error e
  | .ok content =>
    match Utf8.decode content with
    | .ok t => .ok t
    | .error _ => .error .notText

/-- Write a file, which is made if only its directory is there. -/
def write (fs : FileTree) (p : Text) (content : Bytes) : Except FileError FileTree :=
  match fs.locate true p with
  | .error e =>
    if p.getLast? == some '/' && e == .notFound then .error .isDirectory else .error e
  | .ok r =>
    match fs.entry? r with
    | some .directory => .error .isDirectory
    | _ => .ok (fs.set r (.file content))

def writeText (fs : FileTree) (p t : Text) : Except FileError FileTree :=
  fs.write p (Utf8.encode t)

/-- Make the directories along some names, where they are missing. -/
def makeAlong (fs : FileTree) : RealPath → List Text → FileTree
  | _, [] => fs
  | dir, t :: ts =>
    match fs.locateFrom true fs.limits.links dir [t] with
    | .error _ => fs
    | .ok here =>
      let fs := if (fs.entry? here).isSome then fs else fs.set here .directory
      makeAlong fs here ts

/-- Make a directory and those above it. -/
def makeDirectory (fs : FileTree) (p : Text) : FileTree :=
  fs.makeAlong (origin fs.here p) (Path.pieces p)

/-- Make the directories that lead to a path. -/
def makeAbove (fs : FileTree) (p : Text) : FileTree :=
  fs.makeAlong (origin fs.here p) (Path.pieces p).dropLast

/-- Put a link at a path, whose directories are made. -/
def makeLink (fs : FileTree) (p target : Text) : FileTree :=
  let fs := fs.makeAbove p
  match fs.locate false p with
  | .ok r => fs.set r (.link target)
  | .error _ => fs

/-- Remove the entry at a path, if it is there. -/
def remove (fs : FileTree) (p : Text) : FileTree :=
  match fs.locate false p with
  | .ok r => fs.erase r
  | .error _ => fs

/-- Put a file at a path, whose directories are made. -/
def addFile (fs : FileTree) (p : Text) (content : Bytes) : FileTree :=
  let fs := fs.makeAbove p
  match fs.write p content with
  | .ok fs => fs
  | .error _ => fs

/-- The files below the working directory, with their names from there. -/
def files (fs : FileTree) : List (List Text × Bytes) :=
  fs.entries.filterMap fun (p, e) =>
    match e with
    | .file content => if fs.here.isPrefixOf p then some (p.drop fs.here.length, content) else none
    | _ => none

end FileTree

end DocCoverage
