import DocCoverage.Digest
import DocCoverage.HashStore
import DocCoverage.Record
import DocCoverage.Text.Normalize

/-!
# Running over files

Each file is read, compared with the hash store and, unless it is current there, decoded,
normalised and analysed. A file that cannot be analysed gets a reason instead of records and does
not stop the run.
-/
namespace DocCoverage

/-- How many milliseconds into the scan of a text the clock is looked at, by the path, the text and
the byte offset. -/
abbrev Clock := (path source : Text) → (offset : Nat) → Nat

/-- The clock by which no time passes. -/
def Clock.still : Clock := fun _ _ _ => 0

structure Settings where
  maxDepth : Nat
  /-- The milliseconds that the scan of a file may take. -/
  timeout : Option Nat
  clock : Clock
  /-- Leave out what is nested in documented definitions. -/
  collapse : Bool
  level : Level

def Settings.scan (settings : Settings) (path source : Text) : ScanOptions where
  maxDepth := settings.maxDepth
  expired := fun offset => settings.timeout.any (· ≤ settings.clock path source offset)

inductive FileFailure where
  | unreadable (path : Text) (error : FileError)
  | notText (path : Text) (fault : Utf8.Fault)
  | unscannable (path : Text) (error : ScanError)
  deriving DecidableEq, Repr

def FileFailure.message : FileFailure → Text
  | unreadable path e => "failed to read " ++ path ++ ": " ++ e.message
  | notText path e => path ++ " is not valid UTF-8: " ++ e.message
  | unscannable path e => "failed to analyse " ++ path ++ ": " ++ e.message

inductive Status where
  | analysed (hash : Text) (coverage : Coverage) (records : List Record)
  /-- The store knows the content and it reached the wanted level. -/
  | unchanged
  | failed (failure : FileFailure)
  deriving DecidableEq, Repr

structure FileResult where
  path : Text
  status : Status
  deriving DecidableEq, Repr

/-- The run met a file whose scan breaks off inside a character, which ends it as a whole. -/
structure Abort where
  path : Text
  deriving DecidableEq, Repr

/-- Analyse the content of a file that is not current. -/
def analyseContent (gs : GrammarSet) (settings : Settings) (path : Text) (content : Bytes) :
    Except Abort Status :=
  match Utf8.decode content with
  | .error fault => .ok (.failed (.notText path fault))
  | .ok t =>
    let source := Text.normalize t
    match analyze gs (settings.scan path source) path source with
    | .ok a => .ok (.analysed (Digest.hex content) a.coverage (a.records settings.collapse))
    | .error (.openerSplitsCharacter _) => .error ⟨path⟩
    | .error e => .ok (.failed (.unscannable path e))

/-- The store, if there is one, has the content as current. -/
def skips (store : Option HashStore) (settings : Settings) (path : Text) (content : Bytes) :
    Bool :=
  match store with
  | some s => s.isCurrent path (Digest.hex content) settings.level
  | none => false

def runFile (gs : GrammarSet) (store : Option HashStore) (settings : Settings) (fs : FileTree)
    (path : Text) : Except Abort FileResult :=
  match fs.read path with
  | .error e => .ok ⟨path, .failed (.unreadable path e)⟩
  | .ok content =>
    if skips store settings path content then .ok ⟨path, .unchanged⟩
    else
      match analyseContent gs settings path content with
      | .error e => .error e
      | .ok status => .ok ⟨path, status⟩

/-- The results for some files, in their order. -/
def runFiles (gs : GrammarSet) (store : Option HashStore) (settings : Settings) (fs : FileTree) :
    List Text → Except Abort (List FileResult)
  | [] => .ok []
  | path :: paths =>
    match runFile gs store settings fs path with
    | .error e => .error e
    | .ok r =>
      match runFiles gs store settings fs paths with
      | .error e => .error e
      | .ok rs => .ok (r :: rs)

structure Summary where
  analysed : Nat
  unchanged : Nat
  failed : Nat
  /-- Files that were analysed but are not documented in full. -/
  incomplete : Nat
  deriving DecidableEq, Repr

namespace Summary

def isAnalysed : FileResult → Bool
  | ⟨_, .analysed ..⟩ => true
  | _ => false

def isUnchanged : FileResult → Bool
  | ⟨_, .unchanged⟩ => true
  | _ => false

def isFailed : FileResult → Bool
  | ⟨_, .failed _⟩ => true
  | _ => false

def isIncomplete : FileResult → Bool
  | ⟨_, .analysed _ coverage _⟩ => !coverage.complete
  | _ => false

def ofResults (rs : List FileResult) : Summary where
  analysed := rs.countP isAnalysed
  unchanged := rs.countP isUnchanged
  failed := rs.countP isFailed
  incomplete := rs.countP isIncomplete

/-- Nothing failed and nothing is incomplete. -/
def isClean (s : Summary) : Bool := s.incomplete == 0 && s.failed == 0

end Summary

end DocCoverage
