import DocCoverage.Command.Options
import DocCoverage.Discovery
import DocCoverage.Grammar.File
import DocCoverage.Report.File
import DocCoverage.Run

/-!
# Executing a command

A command reads its grammar, finds its files, runs over them, remembers them in the hash store and
prints or writes the report. Everything that can be refused is looked at before the first file is
written, and the first error ends the command. The outcome tells what was printed, the exit status
and the files after it.
-/
namespace DocCoverage.Command

def versionText : Text := "lintworm 0.1.0\n"

def helpText : Text :=
  "Report how well Python definitions are documented\n\nUsage: lintworm [OPTIONS] <PATHS>...\n"

inductive GrammarError where
  | unreadable (path : Text) (error : FileError)
  | invalid (path : Text) (fault : Json.Fault)
  | badPattern (error : PatternError)
  deriving DecidableEq, Repr

def GrammarError.message : GrammarError → Text
  | unreadable path e => "failed to read grammar file " ++ path ++ ": " ++ e.message
  | invalid path _ => "invalid grammar file " ++ path
  | badPattern e => "failed to compile documentation grammar: " ++ e.message

/-- The templates in a grammar file, or the standard ones without a file. -/
def loadTemplates (fs : FileTree) : Option Text → Except GrammarError TemplateSet
  | none => .ok .standard
  | some path =>
    match fs.readText path with
    | .error e => .error (.unreadable path e)
    | .ok t =>
      match TemplateSet.ofFile t with
      | .error fault => .error (.invalid path fault)
      | .ok ts => .ok ts

def loadGrammars (lib : Pattern.Library) (fs : FileTree) (path : Option Text) :
    Except GrammarError GrammarSet :=
  match loadTemplates fs path with
  | .error e => .error e
  | .ok ts =>
    match GrammarSet.compile lib ts with
    | .error e => .error (.badPattern e)
    | .ok gs => .ok gs

inductive Error where
  | grammar (error : GrammarError)
  | filter (error : FilterError)
  | discovery (error : Discovery.Error)
  | format (error : UnknownFormat)
  | columns (error : Column.UnknownColumn)
  | store (error : StoreError)
  | report (error : Report.Error)
  /-- The run broke off. -/
  | aborted (abort : Abort)
  deriving DecidableEq, Repr

def Error.message : Error → Text
  | grammar e => e.message
  | filter e => e.message
  | discovery e => e.message
  | format e => e.message
  | columns e => e.message
  | store e => e.message
  | report e => e.message
  | aborted a => "cannot analyse " ++ a.path

def Options.settings (o : Options) (clock : Clock) : Settings where
  maxDepth := o.maxDepth.getD 256
  timeout := o.timeoutMs
  clock := clock
  collapse := !o.all
  level := o.level.getD .documented

/-- Everything that is settled before the run. -/
structure Plan where
  grammars : GrammarSet
  files : List Text
  format : Format
  columns : List Column
  store : Option HashStore

def lift {ε α : Type} (wrap : ε → Error) : Except ε α → Except Error α
  | .ok a => .ok a
  | .error e => .error (wrap e)

def loadStore (fs : FileTree) : Option Text → Except StoreError (Option HashStore)
  | none => .ok none
  | some path =>
    match HashStore.load fs path with
    | .error e => .error e
    | .ok s => .ok (some s)

def plan (lib : Pattern.Library) (fs : FileTree) (o : Options) : Except Error Plan := do
  let grammars ← lift .grammar (loadGrammars lib fs o.grammar)
  let filter ← lift .filter (PathFilter.ofPatterns o.exclude)
  let filter ← lift .filter (filter.extendAll fs o.excludeFiles)
  let files ← lift .discovery (Discovery.collect fs filter o.inputs)
  let format ← lift .format (Format.ofName (o.format.getD "csv"))
  let columns ← lift .columns (Column.select o.columns)
  let store ← lift .store (loadStore fs o.hashFile)
  return ⟨grammars, files, format, columns, store⟩

/-- The records of a result: those of an analysed file, or the one of a file that failed. -/
def recordsOf (r : FileResult) : List Record :=
  match r.status with
  | .analysed _ _ records => records
  | .failed failure => [Record.unanalysed r.path failure.message]
  | .unchanged => []

/-- The paths whose old rows the records replace. -/
def replacedBy (rs : List FileResult) : List Text :=
  (rs.filter fun r => !Summary.isUnchanged r).map (·.path)

def remember (s : HashStore) (r : FileResult) : HashStore :=
  match r.status with
  | .analysed hash coverage _ => s.update r.path (.ofCoverage hash coverage)
  | _ => s

def rememberAll (s : HashStore) (rs : List FileResult) : HashStore := rs.foldl remember s

def saveStore (fs : FileTree) (o : Options) (p : Plan) (rs : List FileResult) :
    Except StoreError FileTree :=
  match p.store, o.hashFile with
  | some s, some path => (rememberAll s rs).save fs path
  | _, _ => .ok fs

structure Answer where
  output : Text
  passed : Bool
  deriving DecidableEq, Repr

def deliver (fs : FileTree) (time : Text) (o : Options) (p : Plan) (rs : List FileResult) :
    Except Report.Error (Text × FileTree) :=
  let records := rs.flatMap recordsOf
  match o.report with
  | none => .ok (p.format.render p.columns records, fs)
  | some target =>
    match Report.write fs time p.format target p.columns records (replacedBy rs) with
    | .error e => .error e
    | .ok (_, fs) => .ok ([], fs)

/-- The files after a command, and how it ended. -/
structure Outcome where
  files : FileTree
  result : Except Error Answer

/-- Execute a command with a pattern library, by a clock and at a time of day, which only shows in
the names of new reports. -/
def execute (lib : Pattern.Library) (clock : Clock) (fs : FileTree) (time : Text) (o : Options) :
    Outcome :=
  match plan lib fs o with
  | .error e => ⟨fs, .error e⟩
  | .ok p =>
    match runFiles p.grammars p.store (o.settings clock) fs p.files with
    | .error a => ⟨fs, .error (.aborted a)⟩
    | .ok rs =>
      match saveStore fs o p rs with
      | .error e => ⟨fs, .error (.store e)⟩
      | .ok saved =>
        match deliver saved time o p rs with
        | .error e => ⟨saved, .error (.report e)⟩
        | .ok (output, written) =>
          ⟨written, .ok ⟨output, !o.check || (Summary.ofResults rs).isClean⟩⟩

def Outcome.exitStatus (out : Outcome) : Nat :=
  match out.result with
  | .ok r => if r.passed then 0 else 1
  | .error (.aborted _) => 101
  | .error _ => 2

end DocCoverage.Command
