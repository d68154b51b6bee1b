import FunctionIndex.Command.Arguments
import FunctionIndex.Command.Log
import FunctionIndex.Extraction.Basic
import FunctionIndex.Glob.Expand

/-! # Runs of the command

A run collects its paths, refuses to go on if one of them is not a file, extracts the definitions
of each file, and reports the entries of all files that could be processed. Failed files are told at
the end and make the run fail.

The texts that explain the arguments, for help or with a refusal, are left out: all there is of such
an outcome is its exit. So are two failures of the system: the threads that do the jobs are taken to
start, however many are asked for, and standard output to take all that is written.
-/
namespace FunctionIndex.Command
set_option autoImplicit false

@[ext]
structure Outcome where
  exit : Nat
  stdout : String
  stderr : List String
  deriving DecidableEq, Repr

inductive Failure where
  | invalidGlob (pattern : String) (error : Glob.Error)
  | noInput
  | missing (count : Nat)
  | unprocessed (count : Nat)
  deriving DecidableEq, Repr

namespace Failure

def message : Failure → String
  | .invalidGlob pattern error =>
    "Error: invalid glob pattern: " ++ pattern ++ "\n\nCaused by:\n    " ++
      "Pattern syntax error near position " ++ Text.Decimal.render error.position ++ ": " ++
      error.fault.message
  | .noInput => "Error: no input files: pass --file or --glob"
  | .missing count => "Error: " ++ Text.Decimal.render count ++ " input file(s) do not exist"
  | .unprocessed count =>
    "Error: " ++ Text.Decimal.render count ++ " file(s) could not be processed"

end Failure

structure Transcript where
  report : String
  events : List Event
  failure : Option Failure

def lines (text : String) : List String := (text.toList.splitOn '\n').map String.ofList

namespace Transcript

def after (events : List Event) (transcript : Transcript) : Transcript :=
  { transcript with events := events ++ transcript.events }

def outcome (chosen : Level) (transcript : Transcript) : Outcome :=
  let shown := transcript.events.filter (·.isShown chosen)
  let texts := shown.map (·.text) ++ (transcript.failure.map Failure.message).toList
  { exit := if transcript.failure.isSome then 1 else 0
    stdout := transcript.report
    stderr := texts.flatMap lines }

end Transcript

structure Search (α : Type) where
  events : List Event
  result : Except Failure α

def Search.map {α β : Type} (f : α → β) (search : Search α) : Search β :=
  ⟨search.events, search.result.map f⟩

def skippedEvent (folder : Glob.Unreadable) : Event :=
  { level := .warn, message := "Skipping unreadable glob match: " ++ folder.message }

/-- The files that match each pattern. The first pattern that is not valid ends the search. -/
def matchAll (directory : Directory) : List String → Search (List (List Path))
  | [] => ⟨[], .ok []⟩
  | pattern :: patterns =>
    match Glob.Pattern.parse pattern with
    | .error error => ⟨[], .error (.invalidGlob pattern error)⟩
    | .ok parsed =>
      let rest := (matchAll directory patterns).map (parsed.files directory :: ·)
      ⟨(parsed.unreadable directory).map skippedEvent ++ rest.events, rest.result⟩

def gather (files : List Path) (found : List (List Path)) : List Path :=
  Path.distinct (files ++ found.flatten)

def collect (directory : Directory) (files : List Path) (globs : List String) :
    Search (List Path) :=
  (matchAll directory globs).map (gather files)

def count {α : Type} (items : List α) : String := Text.Decimal.render items.length

def startedEvent (paths : List Path) : Event :=
  { level := .debug, message := "Extracting functions from " ++ count paths ++ " file(s)" }

def convertedEvent (definition : Definition) : Event :=
  { level := .trace
    message := "converted " ++ definition.form.kind
    values :=
      [("name", definition.record.name),
        ("start", Text.Decimal.render definition.record.start.toNat),
        ("end", Text.Decimal.render definition.record.stop.toNat)] }

def fileEvents (path : Path) : Except ExtractionError FileDefinitions → List Event
  | .ok content =>
    let extracted := "Extracted " ++ count content.definitions ++ " functions from " ++
      content.language
    content.definitions.map convertedEvent ++
      [{ level := .debug, message := extracted ++ " tree" },
        { level := .debug, message := extracted ++ " file: " ++ path.text }]
  | .error error =>
    [{ level := .warn
       message := "Failed to extract functions from " ++ path.text ++ ": " ++ error.message }]

def missingEvent (path : Path) : Event :=
  { level := .error, message := "C++ file at " ++ path.text ++ " does not exist ..." }

def failedEvent (error : ExtractionError) : Event :=
  { level := .error, message := error.message }

def succeeded {ε α : Type} (results : List (Except ε α)) : List α :=
  results.filterMap Except.toOption

def failed {ε α : Type} (results : List (Except ε α)) : List ε :=
  results.filterMap fun result =>
    match result with
    | .ok _ => none
    | .error error => some error

/-- What is made of the results of all paths, after the events of their extraction. -/
def conclude (options : Options) (paths : List Path) (told : List Event)
    (results : List (Except ExtractionError FileDefinitions)) : Transcript :=
  let errors := failed results
  { report := Report.text (options.format.getD .lines) (1 < paths.length)
      ((succeeded results).map FileDefinitions.toRecords)
    events := startedEvent paths :: told ++ errors.map failedEvent
    failure := if errors.isEmpty then none else some (.unprocessed errors.length) }

def processFiles (parser : Parser) (directory : Directory) (options : Options)
    (paths : List Path) : Transcript :=
  let results := parser.extractFiles directory (options.language.map Language.name) paths
  conclude options paths ((paths.zip results).flatMap fun item => fileEvents item.1 item.2) results

def missing (directory : Directory) (paths : List Path) : List Path :=
  paths.filter fun path => !directory.isFile path

/-- Goes on only with paths that all are files. -/
def checkPaths (directory : Directory) (paths : List Path) (next : Transcript) : Transcript :=
  if paths.isEmpty then ⟨"", [], some .noInput⟩
  else
    let absent := missing directory paths
    if absent.isEmpty then next
    else ⟨"", absent.map missingEvent, some (.missing absent.length)⟩

def processPaths (parser : Parser) (directory : Directory) (options : Options)
    (paths : List Path) : Transcript :=
  checkPaths directory paths (processFiles parser directory options paths)

def process (parser : Parser) (directory : Directory) (options : Options) : Transcript :=
  let search := collect directory options.files options.globs
  match search.result with
  | .error failure => ⟨"", search.events, some failure⟩
  | .ok paths => (processPaths parser directory options paths).after search.events

/-- A level that is given from outside goes before the options. -/
def chosenLevel (given : Option Level) (options : Options) : Level :=
  given.getD (if options.verbose then .debug else .info)

def versionText : String := "cpp-functions 0.1.0\n"

/-- Of help and of refused arguments only the exit is known. -/
def run (parser : Parser) (directory : Directory) (given : Option Level)
    (arguments : List String) : Outcome :=
  match Request.ofArguments arguments with
  | .error _ => ⟨2, "", []⟩
  | .ok .version => ⟨0, versionText, []⟩
  | .ok .help => ⟨0, "", []⟩
  | .ok (.run options) =>
    (process parser directory options).outcome (chosenLevel given options)

end FunctionIndex.Command
