import DocCoverage.HashStore

/-!
# Command line options

An option takes its value from the same argument, behind an equals sign or, for a short option,
directly, or else from the next argument, unless that starts with a hyphen. Short options without
values can be written together. Options other than lists may be given once, and everything behind a
double hyphen is an input.
-/
namespace DocCoverage.Command

structure Options where
  /-- Files, directories or glob patterns. -/
  inputs : List Text := []
  exclude : List Text := []
  excludeFiles : List Text := []
  grammar : Option Text := none
  report : Option Text := none
  format : Option Text := none
  columns : List Text := []
  all : Bool := false
  hashFile : Option Text := none
  level : Option Level := none
  maxDepth : Option Nat := none
  timeoutMs : Option Nat := none
  check : Bool := false
  verbose : Bool := false
  deriving DecidableEq, Repr

inductive Request where
  | run (o : Options)
  | version
  | help
  deriving DecidableEq, Repr

inductive UsageError where
  | unknown (arg : Text)
  | missingValue (name : Text)
  | unexpectedValue (name : Text)
  | invalidValue (name value : Text)
  | repeated (name : Text)
  | noInputs
  deriving DecidableEq, Repr

def UsageError.message : UsageError → Text
  | unknown arg => "unexpected argument '" ++ arg ++ "'"
  | missingValue name => "a value is required for '" ++ name ++ "'"
  | unexpectedValue name => "unexpected value for '" ++ name ++ "'"
  | invalidValue name value => "invalid value '" ++ value ++ "' for '" ++ name ++ "'"
  | repeated name => "the argument '" ++ name ++ "' cannot be used multiple times"
  | noInputs => "no paths were given"

/-- The options with a value. -/
inductive Valued where
  | exclude
  | excludeFile
  | grammar
  | report
  | format
  | columns
  | hashFile
  | level
  | maxDepth
  | timeoutMs
  deriving DecidableEq, Repr

/-- The options without one. -/
inductive Switch where
  | all
  | check
  | verbose
  | version
  | help
  deriving DecidableEq, Repr

/-- What a name on the command line stands for. -/
inductive Named where
  | valued (v : Valued)
  | switch (s : Switch)
  deriving DecidableEq, Repr

def longNames : List (Text × Named) :=
  [("exclude", .valued .exclude), ("exclude-file", .valued .excludeFile),
   ("grammar", .valued .grammar), ("report", .valued .report), ("format", .valued .format),
   ("columns", .valued .columns), ("all", .switch .all), ("hash-file", .valued .hashFile),
   ("level", .valued .level), ("max-depth", .valued .maxDepth),
   ("timeout-ms", .valued .timeoutMs), ("check", .switch .check),
   ("verbose", .switch .verbose), ("help", .switch .help), ("version", .switch .version)]

def shortNames : List (Char × Named) :=
  [('x', .valued .exclude), ('X', .valued .excludeFile), ('g', .valued .grammar),
   ('r', .valued .report), ('f', .valued .format), ('c', .valued .columns),
   ('v', .switch .verbose), ('h', .switch .help), ('V', .switch .version)]

def Valued.spelling (v : Valued) : Text :=
  match longNames.find? (·.2 == .valued v) with
  | some (name, _) => "--" ++ name
  | none => []

def Switch.spelling (s : Switch) : Text :=
  match longNames.find? (·.2 == .switch s) with
  | some (name, _) => "--" ++ name
  | none => []

/-- A natural number of at most 64 bits, with an optional plus sign. -/
def number? (t : Text) : Option Nat :=
  let digits := match t with
    | '+' :: rest => rest
    | t => t
  if digits.isEmpty || !digits.all Text.isAsciiDigit then none
  else
    let n := digits.foldl (fun n d => n * 10 + (d.toNat - '0'.toNat)) 0
    if n < Nat.pow 2 64 then some n else none

namespace Options

/-- Give an option its value for the first time. -/
def once {α : Type} (v : Valued) (old : Option α) (value : α) : Except UsageError (Option α) :=
  match old with
  | none => .ok (some value)
  | some _ => .error (.repeated v.spelling)

/-- A path, which may not be empty. -/
def pathValue (v : Valued) (value : Text) : Except UsageError Text :=
  if value.isEmpty then .error (.missingValue v.spelling) else .ok value

/-- Read a value with a partial function. -/
def readValue {α : Type} (v : Valued) (read : Text → Option α) (value : Text) :
    Except UsageError α :=
  match read value with
  | some a => .ok a
  | none => .error (.invalidValue v.spelling value)

def setValue (o : Options) (v : Valued) (value : Text) : Except UsageError Options :=
  match v with
  | .exclude => .ok { o with exclude := o.exclude ++ [value] }
  | .excludeFile => do
    return { o with excludeFiles := o.excludeFiles ++ [← pathValue v value] }
  | .grammar => do return { o with grammar := ← once v o.grammar (← pathValue v value) }
  | .report => do return { o with report := ← once v o.report (← pathValue v value) }
  | .format => do return { o with format := ← once v o.format value }
  | .columns => .ok { o with columns := o.columns ++ Text.splitOn ',' value }
  | .hashFile => do return { o with hashFile := ← once v o.hashFile (← pathValue v value) }
  | .level => do return { o with level := ← once v o.level (← readValue v Level.ofName? value) }
  | .maxDepth => do return { o with maxDepth := ← once v o.maxDepth (← readValue v number? value) }
  | .timeoutMs => do
    return { o with timeoutMs := ← once v o.timeoutMs (← readValue v number? value) }

def setSwitch (o : Options) (s : Switch) : Except UsageError Options :=
  match s with
  | .all => if o.all then .error (.repeated s.spelling) else .ok { o with all := true }
  | .check => if o.check then .error (.repeated s.spelling) else .ok { o with check := true }
  | .verbose => if o.verbose then .error (.repeated s.spelling) else .ok { o with verbose := true }
  | _ => .ok o

end Options

/-- What reading one argument comes to. -/
inductive Step where
  /-- Go on with these options. -/
  | next (o : Options)
  /-- The next argument is the value of an option. -/
  | value (o : Options) (v : Valued)
  /-- Stop and answer a request. -/
  | stop (r : Request)

def applySwitch (o : Options) (s : Switch) : Except UsageError Step :=
  match s with
  | .version => .ok (.stop .version)
  | .help => .ok (.stop .help)
  | s => do return .next (← o.setSwitch s)

/-- A long option behind its hyphens. -/
def readLong (o : Options) (t : Text) : Except UsageError Step :=
  let (name, rest) := t.span (· != '=')
  match longNames.lookup name, rest with
  | none, _ => .error (.unknown ("--" ++ t))
  | some (.valued v), [] => .ok (.value o v)
  | some (.valued v), _ :: value => do return .next (← o.setValue v value)
  | some (.switch s), [] => applySwitch o s
  | some (.switch s), _ :: _ => .error (.unexpectedValue s.spelling)

/-- A row of short options behind their hyphen. -/
def readShort (o : Options) : Text → Except UsageError Step
  | [] => .ok (.next o)
  | c :: t =>
    match shortNames.lookup c with
    | none => .error (.unknown ['-', c])
    | some (.valued v) =>
      match t with
      | [] => .ok (.value o v)
      | '=' :: value => do return .next (← o.setValue v value)
      | value => do return .next (← o.setValue v value)
    | some (.switch s) => do
      match ← applySwitch o s with
      | .next o => readShort o t
      | step => return step

/-- An argument that stands where options may stand. -/
def readArgument (o : Options) (arg : Text) : Except UsageError Step :=
  match arg with
  | '-' :: '-' :: t => readLong o t
  | '-' :: c :: t => readShort o (c :: t)
  | arg => .ok (.next { o with inputs := o.inputs ++ [arg] })

def looksLikeOption : Text → Bool
  | '-' :: _ :: _ => true
  | _ => false

/-- Read the arguments behind those that gave the options so far. -/
def readArguments : Options → List Text → Except UsageError Request
  | o, [] => if o.inputs.isEmpty then .error .noInputs else .ok (.run o)
  | o, arg :: args =>
    if arg == "--" then
      let o := { o with inputs := o.inputs ++ args }
      if o.inputs.isEmpty then .error .noInputs else .ok (.run o)
    else
      match readArgument o arg with
      | .error e => .error e
      | .ok (.stop r) => .ok r
      | .ok (.next o) => readArguments o args
      | .ok (.value o v) =>
        match args with
        | [] => .error (.missingValue v.spelling)
        | value :: args =>
          if looksLikeOption value then .error (.missingValue v.spelling)
          else
            match o.setValue v value with
            | .error e => .error e
            | .ok o => readArguments o args

def parse (args : List Text) : Except UsageError Request := readArguments {} args

end DocCoverage.Command
