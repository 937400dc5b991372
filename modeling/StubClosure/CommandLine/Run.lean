import StubClosure.Batch
import StubClosure.CommandLine.Arguments
import StubClosure.Listing.Load
import StubClosure.Manifest
import StubClosure.SourceSet

/-!
# The command

Listings and source sets go in, manifests come out. Each listing is a program of its own, named by its file. A fault in a listing or source set ends the command with one report and nothing written; a source type that a program does not define fails that program only. What the command does is a matter of the disk, of what is seen there and what can be put there, so it is a function of it, and what is to be printed and written is its value.
-/

namespace StubClosure.CommandLine

/-- A failure that the command makes no report of. -/
inductive Failure where
  | signature (error : TypeNameError)
  | batch (error : BatchError)
  | file (error : FileError)
  | numeral (error : Text.NumeralError)
  | path (path : Path)
  | valueMissing (option : Switch)
  deriving DecidableEq, Repr

def Failure.message : Failure → String
  | .signature error => error.message
  | .batch error => error.message
  | .file error => error.message
  | .numeral error => error.message
  | .path _ => "embedded null byte"
  | .valueMissing _ => "an option has no value"

/-- A diagnostic of the command, as it is reported. -/
structure Report where
  phase : Option String
  code : Option String := none
  message : String
  severity : Severity := .error
  file : String
  line : Option Int := none
  column : Option Int := none
  notes : List String := []
  deriving DecidableEq, Repr

/-- A line of the log, with the name of the logger. -/
structure LoggedLine where
  logger : String
  line : LogLine
  deriving DecidableEq, Repr

/-- What the command prints, logs and writes, and its status. -/
structure Outcome where
  exitCode : Nat
  stdout : String := ""
  errors : List String := []
  log : List LoggedLine := []
  directories : List Path := []
  written : List (Path × String) := []
  deriving DecidableEq, Repr

/-! ## Reports -/

namespace Report

/-- A diagnostic of a run. One without a place is put down to the listing. -/
def ofDiagnostic (source : Path) (d : Diagnostic) : Report where
  phase := some ((d.phase.filter (· ≠ "")).getD "closure")
  code := d.code
  message := d.message
  severity := d.severity
  file := d.span.file.getD source.toString
  line := d.span.line
  column := d.span.column
  notes := d.notes

def toJson (r : Report) : Json :=
  .object
    [("phase", .ofOption .text r.phase), ("code", .ofOption .text r.code), ("message", .text r.message),
     ("severity", .text r.severity.name), ("file", .text r.file), ("line", .ofOption .number r.line),
     ("column", .ofOption .number r.column), ("notes", .texts r.notes)]

/-- The report on a line of its own. -/
def text (r : Report) : String :=
  s!"{r.file}:{Span.partText r.line}:{Span.partText r.column}: {r.severity.name}: {r.message}"

end Report

/-- The whole report in one line. -/
def summary (exitCode : Nat) (reports : List Report) (manifests : List (String × Json)) : Json :=
  .object
    [("exit_code", .number exitCode), ("diagnostics", .array (reports.map Report.toJson)),
     ("manifests", .object manifests)]

/-- Reports in the form that is asked for: everything on standard output, or the errors alone on standard error. -/
def reporting (arguments : Arguments) (outcome : Outcome) (reports : List Report) (manifests : List (String × Json)) :
    Outcome :=
  if arguments.json then
    { outcome with stdout := outcome.stdout ++ (summary outcome.exitCode reports manifests).spaced ++ "\n" }
  else { outcome with errors := (reports.filter fun r => r.severity = .error).map Report.text }

/-! ## The log -/

/-- The name of the command's logger. -/
def logger : String := "papier"

/-- The name of the logger of a program. -/
def loggerOf (program : String) : String := logger ++ "." ++ program

/-- The lines that are logged. Trace messages are only on demand. -/
def logged (arguments : Arguments) (name : String) (lines : List LogLine) : List LoggedLine :=
  (lines.filter fun line => arguments.verbose || line.level ≠ .debug).map fun line => { logger := name, line }

/-! ## Reading -/

/-- A listing that has been read, with the names of its source types. -/
structure Input where
  name : String
  path : Path
  job : Job

/-- The end of reading: a fault that is reported, or a failure that is not. -/
inductive Stop where
  | fault (report : Report)
  | failure (failure : Failure)

/-- A fault of the command's own finding. -/
def fault (phase message : String) (file : Path) (line column : Option Int := none) : Stop :=
  .fault { phase := some phase, message, file := file.toString, line, column }

/-- The program of a listing. Only that the system does not open it is a fault. -/
def readListing (files : Files) (path : Path) : Except Stop Program :=
  match files.read path with
  | .error (.garbled complaint) => .error (.failure (.file (.garbled complaint)))
  | .error (.refused refusal _) =>
    if path.hasNull then .error (.failure (.path path))
    else .error (fault "listing" ("cannot read listing: " ++ refusal.text) path)
  | .ok text =>
    match Listing.load text path.stem (some path.toString) with
    | .ok p => .ok p
    | .error (.at span cause) => .error (fault "listing" cause.message path span.line span.column)
    | .error (.signature error) => .error (.failure (.signature error))

/-- The names that all listings share, if a list of them is given. -/
def sharedNames (files : Files) (arguments : Arguments) : Except Stop (Option (List String)) :=
  match arguments.sourceSet with
  | none => .ok none
  | some .missing => .error (.failure (.valueMissing .sourceSet))
  | some (.text text) =>
    let path := Path.ofString text
    if (files path).isAbsent then
      .error (fault "source-set" ("source set file not found: " ++ path.toString) path)
    else ((SourceSet.readAllowList files path).map some).mapError fun e => .failure (.file e)

/-- The names of the source types of a listing: those shared by all, or those of its patches. -/
def sourceNames (files : Files) (arguments : Arguments) (shared : Option (List String)) (name : String) :
    Except Stop (List String) :=
  match shared, arguments.patches with
  | some names, _ => .ok names
  | none, some .missing => .error (.failure (.valueMissing .patches))
  | none, some (.text root) =>
    match SourceSet.gather files ((Path.ofString root).child name) with
    | .ok names => .ok names
    | .error (.patch e) => .error (fault "source-set" e.message e.patch (some (Int.ofNat e.line)))
    | .error (.file e) => .error (.failure (.file e))
  | none, none => .ok []

/-- A listing with its source types. -/
def readInput (files : Files) (arguments : Arguments) (shared : Option (List String)) (earlier : List Input)
    (path : Path) : Except Stop Input := do
  let name := path.stem
  if earlier.any (·.name = name) then throw (fault "listing" s!"duplicate program name '{name}'" path)
  let program ← readListing files path
  let sourceNames ← sourceNames files arguments shared name
  if sourceNames = [] then
    throw (fault "source-set" "no source types given (use --source-set or --patches)" path)
  return { name, path, job := { program, sourceNames } }

/-- Reads listings one after the other. What was read before a stop is given with it. -/
def readInputs (files : Files) (arguments : Arguments) (shared : Option (List String)) (earlier : List Input) :
    List Path → Except (List Input × Stop) (List Input)
  | [] => .ok earlier
  | path :: rest =>
    match readInput files arguments shared earlier path with
    | .error stop => .error (earlier, stop)
    | .ok input => readInputs files arguments shared (earlier ++ [input]) rest

/-- What is logged of the listings that were read. -/
def inputLog (arguments : Arguments) (inputs : List Input) : List LoggedLine :=
  logged arguments logger (inputs.map fun input =>
    let names := Text.joinWith ", " input.job.sourceNames
    { level := .debug, message := s!"{input.name}: {input.job.program.types.size} type(s), source set {names}" })

/-! ## Running and writing -/

/-- The manifests of the programs that have one, by program name. -/
def manifests (inputs : List Input) (outcomes : List (String × JobOutcome)) : List (String × Json) :=
  (sortOn (fun entry => entry.1) (Batch.results outcomes)).map fun (name, result) =>
    let program := ((inputs.find? (·.name = name)).map (·.job.program)).getD default
    (name, Manifest.build result program (some name))

/-- The file that a manifest is written to. With several programs the output is a directory. -/
def manifestPath (output : Path) (isMany : Bool) (name : String) : Path :=
  if isMany then output.child (name ++ ".stubs.json") else output

/-- A manifest that has been written to a file. -/
structure WrittenFile where
  path : Path
  text : String
  fingerprint : String

/-- What is logged of the files written. -/
def writtenLog (arguments : Arguments) (written : List WrittenFile) : List LoggedLine :=
  logged arguments logger (written.map fun file =>
    let digest := String.ofList (file.fingerprint.toList.take 12)
    { level := .info, message := s!"wrote {file.path.toString} ({digest})" })

/-- Where manifests go: to files, for which directories are made, or to standard output. -/
structure Delivery where
  directories : List Path := []
  files : List WrittenFile := []
  printed : List String := []

/-- Writes a manifest to a file, perhaps in a directory that has been made for it. -/
def writeManifest (disk : Disk) (made : Option Path) (path : Path) (manifest : Json) : Except Failure WrittenFile := do
  let text ← (Manifest.render manifest).mapError .numeral
  (disk.writes made path).mapError .file
  let fingerprint ← (Manifest.fingerprint manifest).mapError .numeral
  return { path, text, fingerprint }

/-- The delivery of manifests to an output, which is a directory if there are several programs. -/
def deliverTo (disk : Disk) (output : Path) (isMany : Bool) (manifests : List (String × Json)) :
    Except Failure Delivery := do
  let made := if isMany then some output else none
  made.forM fun directory => (disk.makes directory).mapError .file
  let files ← manifests.mapM fun entry => writeManifest disk made (manifestPath output isMany entry.1) entry.2
  return { directories := made.toList, files }

/-- The delivery of manifests. An output that is asked for has to be a usable path only if something is to be put there. -/
def deliver (disk : Disk) (arguments : Arguments) (isMany : Bool) (manifests : List (String × Json)) :
    Except Failure Delivery :=
  match arguments.output with
  | none =>
    if arguments.json then .ok {}
    else
      ((manifests.mapM fun entry => Manifest.render entry.2).mapError .numeral).map fun printed => { printed }
  | some value =>
    if !isMany && manifests.isEmpty then .ok {}
    else
      match value with
      | .missing => .error (.valueMissing .output)
      | .text text =>
        let output := Path.ofString text
        if output.hasNull then .error (.path output) else deliverTo disk output isMany manifests

/-- The outcome before anything is reported. -/
def outcomeOf (arguments : Arguments) (inputs : List Input) (outcomes : List (String × JobOutcome))
    (delivery : Delivery) : Outcome where
  exitCode := if Batch.succeeded outcomes then 0 else 1
  stdout := String.join delivery.printed
  log := inputLog arguments inputs ++
    (outcomes.flatMap fun (name, outcome) => logged arguments (loggerOf name) outcome.sink.log) ++
      writtenLog arguments delivery.files
  directories := delivery.directories
  written := delivery.files.map fun file => (file.path, file.text)

/-- The outcome of a command that stops before it runs anything. -/
def stopped (arguments : Arguments) (inputs : List Input) : Stop → Except Failure Outcome
  | .failure failure => .error failure
  | .fault report => .ok (reporting arguments { exitCode := 1, log := inputLog arguments inputs } [report] [])

/-- Runs the programs that have been read. -/
def runInputs (disk : Disk) (arguments : Arguments) (inputs : List Input) : Except Failure Outcome := do
  let options : ClosureOptions :=
    { repassOnNewMembers := arguments.repassOnNewMembers, generateAll := arguments.generateAllStubs }
  let jobs := inputs.map fun input => (input.name, input.job)
  let outcomes ← Except.mapError .batch (Batch.run jobs options arguments.jobs)
  let reports := (inputs.zip outcomes).flatMap fun (input, _, outcome) =>
    outcome.sink.diagnostics.map (Report.ofDiagnostic input.path)
  let manifests := manifests inputs outcomes
  let delivery ← deliver disk arguments (inputs.length > 1) manifests
  return reporting arguments (outcomeOf arguments inputs outcomes delivery) reports manifests

/-- Carries out what is asked for, as far as the disk allows. -/
def run (disk : Disk) (arguments : Arguments) : Except Failure Outcome :=
  match sharedNames disk.files arguments with
  | .error stop => stopped arguments [] stop
  | .ok shared =>
    match readInputs disk.files arguments shared [] (arguments.listings.map Path.ofString) with
    | .error (inputs, stop) => stopped arguments inputs stop
    | .ok inputs => runInputs disk arguments inputs

end StubClosure.CommandLine
