import DocCoverage.Digest
import DocCoverage.Files.Tree
import DocCoverage.Json.Shape
import DocCoverage.Outline

/-!
# Remembering analysed files

A hash store keeps, for each path, the digest of the content that was analysed last and the
coverage it reached. A file whose content is unchanged and reached the wanted level need not be
analysed again. The store lives in a JSON file; a file that is not there is an empty store.
-/
namespace DocCoverage

/-- Levels of documentation, weakest first. -/
inductive Level where
  | basicComments
  | multilineComments
  | formattedMultiline
  | documented
  deriving DecidableEq, Repr

namespace Level

def names : List (Text × Level) :=
  [("basic-comments", basicComments), ("multiline-comments", multilineComments),
   ("formatted-multiline", formattedMultiline), ("documented", documented)]

def ofName? (t : Text) : Option Level := names.lookup t

end Level

/-- What is remembered of one file: the digest of its content and the levels that it reached. -/
structure HashEntry where
  hash : Text
  basicComments : Bool
  multilineComments : Bool
  formattedMultiline : Bool
  documented : Bool
  deriving DecidableEq, Repr

structure HashStore where
  /-- Entries by path, in increasing order. -/
  entries : List (Text × HashEntry)
  deriving DecidableEq, Repr

inductive StoreError where
  | unreadable (path : Text) (error : FileError)
  | invalid (path : Text) (fault : Json.Fault)
  | unwritable (path : Text) (error : FileError)
  deriving DecidableEq, Repr

def StoreError.message : StoreError → Text
  | unreadable path e => "failed to read hash file " ++ path ++ ": " ++ e.message
  | invalid path _ => "invalid hash file " ++ path
  | unwritable path e => "failed to write hash file " ++ path ++ ": " ++ e.message

namespace HashEntry

def ofCoverage (hash : Text) (c : Coverage) : HashEntry where
  hash := hash
  basicComments := c.basic
  multilineComments := c.multiline
  formattedMultiline := c.formatted
  documented := c.complete

def reached (e : HashEntry) : Level → Bool
  | .basicComments => e.basicComments
  | .multilineComments => e.multilineComments
  | .formattedMultiline => e.formattedMultiline
  | .documented => e.documented

inductive Field where
  | text (t : Text)
  | flag (b : Bool)

def shape : Json.Shape Field where
  fields := ["hash", "basic_comments", "multiline_comments", "formatted_multiline", "documented"]
  read name t :=
    if name == "hash" then do
      let (v, t) ← Json.readTextValue t
      return (.text v, t)
    else do
      let (v, t) ← Json.readBoolValue t
      return (.flag v, t)
  lenient := true

def Field.text? : Field → Option Text
  | text t => some t
  | flag _ => none

def Field.flag? : Field → Option Bool
  | text _ => none
  | flag b => some b

/-- The entry with the given fields, none of which may be missing. -/
def ofFields? (given : List (Text × Field)) : Option HashEntry := do
  let field (name : Text) : Option Field := given.lookup name
  let hash ← (← field "hash").text?
  let basicComments ← (← field "basic_comments").flag?
  let multilineComments ← (← field "multiline_comments").flag?
  let formattedMultiline ← (← field "formatted_multiline").flag?
  let documented ← (← field "documented").flag?
  return { hash, basicComments, multilineComments, formattedMultiline, documented }

def read (t : Text) : Json.Reading (HashEntry × Text) := do
  let (given, t) ← shape.readRecord t
  match ofFields? given with
  | some e => return (e, t)
  | none => throw .wrongShape

def toJson (e : HashEntry) : Json :=
  .object [("hash", .text e.hash), ("basic_comments", .bool e.basicComments),
    ("multiline_comments", .bool e.multilineComments),
    ("formatted_multiline", .bool e.formattedMultiline), ("documented", .bool e.documented)]

end HashEntry

namespace HashStore

def empty : HashStore := ⟨[]⟩

def get? (s : HashStore) (path : Text) : Option HashEntry := s.entries.lookup path

/-- Remember a file, in place of what was remembered of it. -/
def update (s : HashStore) (path : Text) (e : HashEntry) : HashStore :=
  ⟨Text.bind path e s.entries⟩

/-- The content is the one remembered, and it reached the level. -/
def isCurrent (s : HashStore) (path hash : Text) (level : Level) : Bool :=
  match s.get? path with
  | some e => e.hash == hash && e.reached level
  | none => false

def parse (t : Text) : Json.Reading HashStore := do
  return ⟨← Json.finish (Json.readMap HashEntry.read t)⟩

def render (s : HashStore) : Text :=
  (Json.object (s.entries.map fun (path, e) => (path, e.toJson))).pretty

def load (fs : FileTree) (path : Text) : Except StoreError HashStore :=
  if !fs.exists path then .ok empty
  else
    match fs.readText path with
    | .error e => .error (.unreadable path e)
    | .ok t =>
      match parse t with
      | .error fault => .error (.invalid path fault)
      | .ok s => .ok s

def save (s : HashStore) (fs : FileTree) (path : Text) : Except StoreError FileTree :=
  match fs.writeText path s.render with
  | .error e => .error (.unwritable path e)
  | .ok fs => .ok fs

end HashStore

end DocCoverage
