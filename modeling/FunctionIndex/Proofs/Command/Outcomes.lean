import FunctionIndex.Proofs.Command.Batch
import FunctionIndex.Proofs.Command.Log
import FunctionIndex.Proofs.Command.Process
import FunctionIndex.Proofs.Extraction.Selection
import FunctionIndex.Proofs.Report.Lines

/-! # Outcomes of a run

Whatever the patterns find, and in whatever order the jobs go on, the outcome of a run is settled by
its paths and by what the extraction of each of them gives, up to how the events of the jobs are
mixed.
-/
namespace FunctionIndex.Command
set_option autoImplicit false

def Options.extraction (options : Options) (parser : Parser) (directory : Directory) : Extraction :=
  parser.extractFile directory (options.language.map Language.name)

/-- The outcome of a run that has skipped some folders and whose jobs have ended as in `batch`. -/
def Batch.outcome (batch : Batch) (directory : Directory) (given : Option Level)
    (options : Options) (skipped : List Glob.Unreadable) (paths : List Path) : Outcome :=
  ((checkPaths directory paths (conclude options paths batch.log batch.results)).after
    (skipped.map skippedEvent)).outcome (chosenLevel given options)

/-- The outcomes that the orders of the jobs can give, if the patterns find certain paths. -/
def CanEnd (parser : Parser) (directory : Directory) (given : Option Level) (options : Options)
    (skipped : List Glob.Unreadable) (found : List (List Path)) (outcome : Outcome) : Prop :=
  ∃ batch : Batch,
    Batch.Reaches (options.extraction parser directory)
      (Batch.start (options.extraction parser directory) (gather options.files found)) batch ∧
    batch.IsDone ∧
    outcome = batch.outcome directory given options skipped (gather options.files found)

section
variable {parser : Parser} {directory : Directory} {options : Options}

def ValidGlobs (globs : List String) : Prop :=
  ∀ text ∈ globs, ∃ pattern, Glob.Pattern.parse text = .ok pattern

theorem matchAll_of_validGlobs {globs : List String} (h : ValidGlobs globs) :
    ∃ (skipped : List Glob.Unreadable) (found : List (List Path)),
      matchAll directory globs = ⟨skipped.map skippedEvent, .ok found⟩ := by
  induction globs with
  | nil => exact ⟨[], [], rfl⟩
  | cons text globs ih =>
    obtain ⟨hFirst, hRest⟩ := List.forall_mem_cons.mp h
    obtain ⟨pattern, hPattern⟩ := hFirst
    obtain ⟨skipped, found, hFound⟩ := ih hRest
    refine ⟨pattern.unreadable directory ++ skipped, pattern.files directory :: found, ?_⟩
    rw [matchAll, hPattern, hFound, List.map_append]
    rfl

theorem processFiles_eq (paths : List Path) :
    processFiles parser directory options paths =
      conclude options paths (paths.flatMap (options.extraction parser directory).events)
        (paths.map (options.extraction parser directory)) := by
  rw [processFiles, Parser.extractFiles, ← List.map_prod_left_eq_zip, List.flatMap_map]
  rfl

/-- The run does the jobs one after the other. -/
theorem canEnd_process {skipped : List Glob.Unreadable} {found : List (List Path)}
    (h : matchAll directory options.globs = ⟨skipped.map skippedEvent, .ok found⟩)
    (given : Option Level) :
    CanEnd parser directory given options skipped found
      ((process parser directory options).outcome (chosenLevel given options)) := by
  have hReaches := Batch.reaches_start_finished (options.extraction parser directory)
    (gather options.files found)
  refine ⟨_, hReaches, Batch.finished_isDone _ _, ?_⟩
  rw [Batch.outcome, (Batch.sound_of_reaches hReaches).results_eq (Batch.finished_isDone _ _),
    process_of_found h, processPaths, processFiles_eq]
  rfl

end

/-- What is said of a path to a file that could not be processed. -/
def reason (directory : Directory) (path : Path) : String :=
  match directory.read path with
  | .ok _ => "failed to parse " ++ path.text
  | .error _ => "failed to read " ++ path.text ++ ": stream did not contain valid UTF-8"

/-- What a path adds to the entries of a report. -/
def share (withFile : Bool) (path : Path) : Except ExtractionError FileDefinitions → List Json
  | .ok content => content.definitions.map fun definition =>
    if withFile then definition.record.toLocatedJson path.text else definition.record.toJson
  | .error _ => []

namespace Extraction

/-- A path that fails adds nothing, and a path adds the same whatever becomes of the others. -/
def entries (extract : Extraction) (paths : List Path) : List Json :=
  paths.flatMap fun path => share (1 < paths.length) path (extract path)

def failing (extract : Extraction) (paths : List Path) : List Path :=
  paths.filter fun path => !(extract path).isOk

/-- The last message of a run, if there is one. -/
def verdict (extract : Extraction) (paths : List Path) : List String :=
  if extract.failing paths = [] then []
  else
    ["Error: " ++ toString (extract.failing paths).length ++ " file(s) could not be processed"]

/-- The extraction of a path gives the definitions of this path, or fails for the reason it has. -/
def Suits (extract : Extraction) (directory : Directory) (path : Path) : Prop :=
  match extract path with
  | .ok content => content.path = path
  | .error error => error.message = reason directory path

end Extraction

def printed (format : Report.Format) (entries : List Json) : String :=
  match format with
  | .lines => String.join (entries.map fun entry => entry.compact ++ "\n")
  | .array => (Json.list entries).indented ++ "\n"

/-- The outcome of a run on paths that all are files. -/
structure Reported (directory : Directory) (extract : Extraction) (level : Level)
    (format : Report.Format) (skipped : List Glob.Unreadable) (paths : List Path)
    (outcome : Outcome) : Prop where
  stdout : outcome.stdout = printed format (extract.entries paths)
  /-- Standard output is what is written of the files that could be processed. -/
  written : Report.write format (1 < paths.length)
      ((paths.filterMap fun path => (extract path).toOption).map FileDefinitions.toRecords)
      .unbounded = (true, ⟨none, Text.Utf8.bytes outcome.stdout⟩)
  stderr : ∃ told : List Event, told.Perm (paths.flatMap extract.events) ∧
    Told level outcome.stderr
      (skipped.map skippedEvent ++
        { level := .debug
          message := "Extracting functions from " ++ toString paths.length ++ " file(s)" } :: told)
      ((extract.failing paths).map fun path => "ERROR " ++ visible (reason directory path))
      (extract.verdict paths)
  exit_eq_zero_iff : outcome.exit = 0 ↔ ∀ path ∈ paths, ∃ content, extract path = .ok content
  exit_le_one : outcome.exit ≤ 1

/-- The outcome of a run with its paths and what their extraction gives. -/
structure Settled (directory : Directory) (extract : Extraction) (level : Level)
    (format : Report.Format) (skipped : List Glob.Unreadable) (paths : List Path)
    (outcome : Outcome) : Prop where
  noInput : paths = [] → outcome.Refused ∧
    Told level outcome.stderr (skipped.map skippedEvent) []
      ["Error: no input files: pass --file or --glob"]
  absent : (∃ path ∈ paths, directory.isFile path = false) → outcome.Refused ∧
    Told level outcome.stderr (skipped.map skippedEvent)
      ((paths.filter fun path => !directory.isFile path).map fun path =>
        "ERROR " ++ visible ("C++ file at " ++ path.text ++ " does not exist ..."))
      ["Error: " ++ toString (paths.filter fun path => !directory.isFile path).length ++
        " input file(s) do not exist"]
  reported : paths ≠ [] → (∀ path ∈ paths, directory.isFile path = true) →
    Reported directory extract level format skipped paths outcome

section
variable {parser : Parser} {directory : Directory} {options : Options} {path : Path}

theorem extraction_suits (h : directory.isFile path = true) :
    (options.extraction parser directory).Suits directory path := by
  have hName : (options.language.map Language.name).getD (Language.ofPath path).name =
      (options.language.getD (Language.ofPath path)).name := Option.getD_map ..
  rw [Extraction.Suits, Options.extraction, reason]
  cases hRead : directory.read path with
  | error fault =>
    obtain rfl := Directory.fault_of_isFile h hRead
    rw [Parser.extractFile_of_fault hRead]
    exact String.append_assoc ..
  | ok text =>
    cases hTree : parser (options.language.getD (Language.ofPath path)) text with
    | none =>
      rw [Parser.extractFile_of_no_tree hRead hName hTree]
      rfl
    | some tree => rw [Parser.extractFile_of_tree hRead hName hTree]

end

section
variable {directory : Directory} {extract : Extraction} {paths : List Path}

theorem entries_succeeded (withFile : Bool)
    (h : ∀ path ∈ paths, extract.Suits directory path) :
    Report.entries withFile ((succeeded (paths.map extract)).map FileDefinitions.toRecords) =
      paths.flatMap fun path => share withFile path (extract path) := by
  induction paths with
  | nil => rfl
  | cons path paths ih =>
    obtain ⟨hPath, hPaths⟩ := List.forall_mem_cons.mp h
    rw [Extraction.Suits] at hPath
    rw [List.map_cons, List.flatMap_cons, ← ih hPaths]
    cases hResult : extract path with
    | error error => rfl
    | ok content =>
      rw [hResult] at hPath
      subst hPath
      have hContent : succeeded (.ok content :: paths.map extract) =
          content :: succeeded (paths.map extract) := rfl
      rw [hContent, List.map_cons, Report.entries, List.flatMap_cons]
      cases withFile with
      | false => simp [Report.entries, share, FileDefinitions.toRecords]
      | true => simp [Report.entries, share, FileDefinitions.toRecords]

theorem text_eq_printed (format : Report.Format) (withFile : Bool) (files : List FileRecords) :
    Report.text format withFile files = printed format (Report.entries withFile files) := by
  cases format with
  | array =>
    rw [Report.text, Report.chunks, String.join_cons, String.join_cons, String.join_nil,
      String.append_empty]
    rfl
  | lines =>
    rw [Report.text, Report.chunks, printed]
    induction Report.entries withFile files with
    | nil => rfl
    | cons entry entries ih =>
      rw [List.flatMap_cons, String.join_append, ih, List.map_cons, String.join_cons,
        String.join_cons, String.join_cons, String.join_nil, String.append_empty]

theorem texts_failed (h : ∀ path ∈ paths, extract.Suits directory path) :
    ((failed (paths.map extract)).map failedEvent).map (·.text) =
      (extract.failing paths).map fun path => "ERROR " ++ visible (reason directory path) := by
  induction paths with
  | nil => rfl
  | cons path paths ih =>
    obtain ⟨hPath, hPaths⟩ := List.forall_mem_cons.mp h
    rw [Extraction.Suits] at hPath
    rw [List.map_cons, Extraction.failing]
    cases hResult : extract path with
    | ok content =>
      rw [List.filter_cons_of_neg (by simp [hResult, Except.isOk, Except.toBool])]
      exact ih hPaths
    | error error =>
      rw [hResult] at hPath
      rw [List.filter_cons_of_pos (by simp [hResult, Except.isOk, Except.toBool]),
        List.map_cons, ← hPath, ← text_error]
      exact congrArg (_ :: ·) (ih hPaths)

theorem failing_eq_nil_iff :
    extract.failing paths = [] ↔ ∀ path ∈ paths, ∃ content, extract path = .ok content := by
  rw [Extraction.failing, List.filter_eq_nil_iff]
  apply forall₂_congr
  intro path _
  cases extract path <;> simp [Except.isOk, Except.toBool]

end

theorem isLesser_of_mem_fileEvents {path : Path} {result : Except ExtractionError FileDefinitions}
    {event : Event} (h : event ∈ fileEvents path result) : event.IsLesser := by
  cases result with
  | error error =>
    obtain rfl := List.mem_singleton.mp h
    exact .inl rfl
  | ok content =>
    rcases List.mem_append.mp h with hConverted | hCounted
    · obtain ⟨definition, -, rfl⟩ := List.mem_map.mp hConverted
      exact .inr (.inr rfl)
    · simp only [List.mem_cons, List.not_mem_nil, or_false] at hCounted
      rcases hCounted with rfl | rfl
      · exact .inr (.inl rfl)
      · exact .inr (.inl rfl)

section
variable {directory : Directory} {extract : Extraction} {given : Option Level} {options : Options}
  {skipped : List Glob.Unreadable} {paths : List Path} {batch : Batch}

theorem isLesser_of_mem_skipped {event : Event} (h : event ∈ skipped.map skippedEvent) :
    event.IsLesser := by
  obtain ⟨folder, -, rfl⟩ := List.mem_map.mp h
  exact .inl rfl

theorem isLesser_of_mem_told {told : List Event} (h : told.Perm (paths.flatMap extract.events))
    {event : Event} (hEvent : event ∈ skipped.map skippedEvent ++ startedEvent paths :: told) :
    event.IsLesser := by
  rcases List.mem_append.mp hEvent with hSkipped | hRest
  · exact isLesser_of_mem_skipped hSkipped
  · rcases List.mem_cons.mp hRest with rfl | hTold
    · exact .inr (.inl rfl)
    · obtain ⟨path, -, hPath⟩ := List.mem_flatMap.mp (h.mem_iff.mp hTold)
      exact isLesser_of_mem_fileEvents hPath

/-- A message with a number between two texts without a line end has none. -/
theorem newline_not_mem_counted {before after : String} (hBefore : '\n' ∉ before.toList)
    (hAfter : '\n' ∉ after.toList) (n : Nat) :
    '\n' ∉ (before ++ Text.Decimal.render n ++ after).toList := by
  simp only [String.toList_append, List.mem_append, not_or]
  refine ⟨⟨hBefore, ?_⟩, hAfter⟩
  rw [Text.Decimal.render, String.toList_ofList]
  exact Text.Decimal.not_mem_digits (by decide) n

theorem failure_conclude (hSuits : ∀ path ∈ paths, extract.Suits directory path)
    (options : Options) (log : List Event) :
    (conclude options paths log (paths.map extract)).failure =
      if extract.failing paths = [] then none
      else some (.unprocessed (extract.failing paths).length) := by
  have hCount : (failed (paths.map extract)).length = (extract.failing paths).length := by
    simpa using congrArg List.length (texts_failed hSuits)
  have hEmpty : (failed (paths.map extract)).isEmpty = true ↔ extract.failing paths = [] := by
    rw [List.isEmpty_iff_length_eq_zero, hCount, List.length_eq_zero_iff]
  simp only [conclude, hEmpty, hCount]

theorem newline_not_mem_verdict : ∀ message ∈ extract.verdict paths, '\n' ∉ message.toList := by
  intro message hMessage
  rw [Extraction.verdict] at hMessage
  split at hMessage
  · cases hMessage
  · obtain rfl := List.mem_singleton.mp hMessage
    exact newline_not_mem_counted (by decide) (by decide) _

/-- What is told by a run whose jobs have told their events in some order. -/
theorem told_conclude (hSuits : ∀ path ∈ paths, extract.Suits directory path) {level : Level}
    (hLevel : level ≠ .off) {log : List Event} (hLog : log.Perm (paths.flatMap extract.events)) :
    Told level
      (((conclude options paths log (paths.map extract)).after
        (skipped.map skippedEvent)).outcome level).stderr
      (skipped.map skippedEvent ++ startedEvent paths :: log)
      ((extract.failing paths).map fun path => "ERROR " ++ visible (reason directory path))
      (extract.verdict paths) := by
  rw [← texts_failed hSuits]
  apply Transcript.told hLevel
  · exact (List.append_assoc ..).symm
  · intro event hEvent
    exact isLesser_of_mem_told hLog hEvent
  · intro event hEvent
    obtain ⟨error, -, rfl⟩ := List.mem_map.mp hEvent
    rfl
  · rw [Transcript.after, failure_conclude hSuits, Extraction.verdict]
    split
    · rfl
    · rfl
  · exact newline_not_mem_verdict

theorem exit_conclude (hSuits : ∀ path ∈ paths, extract.Suits directory path) (options : Options)
    (log events : List Event) (level : Level) :
    (((conclude options paths log (paths.map extract)).after events).outcome level).exit =
      if extract.failing paths = [] then 0 else 1 := by
  rw [Transcript.outcome, Transcript.after, failure_conclude hSuits]
  split
  · rfl
  · rfl

theorem Batch.Sound.reported (h : batch.Sound extract paths) (hDone : batch.IsDone)
    (hSuits : ∀ path ∈ paths, extract.Suits directory path)
    (hLevel : chosenLevel given options ≠ .off) (hPaths : paths ≠ [])
    (hFiles : ∀ path ∈ paths, directory.isFile path = true) :
    Reported directory extract (chosenLevel given options) (options.format.getD .lines) skipped
      paths (batch.outcome directory given options skipped paths) := by
  rw [Batch.outcome, checkPaths_of_files hPaths (missing_eq_nil_iff.mpr hFiles),
    h.results_eq hDone]
  have hExit := exit_conclude hSuits options batch.log (skipped.map skippedEvent)
    (chosenLevel given options)
  constructor
  · rw [Extraction.entries, ← entries_succeeded _ hSuits, ← text_eq_printed]
    rfl
  · have hSucceeded : (paths.filterMap fun path => (extract path).toOption) =
        succeeded (paths.map extract) := by
      rw [succeeded, List.filterMap_map]
      rfl
    rw [hSucceeded]
    exact Report.write_unbounded ..
  · exact ⟨batch.log, h.log_perm hDone, told_conclude hSuits hLevel (h.log_perm hDone)⟩
  · rw [hExit, ← failing_eq_nil_iff]
    simp
  · rw [hExit]
    split
    · exact Nat.zero_le 1
    · exact Nat.le_refl 1

/-- A refused run tells what was skipped, some errors, and why it is refused. -/
theorem Transcript.refused_told {level : Level} (hLevel : level ≠ .off)
    (skipped : List Glob.Unreadable) (errors : List Event) (failure : Failure)
    (hErrors : ∀ event ∈ errors, event.level = .error)
    (hOneLine : '\n' ∉ failure.message.toList) {outcome : Outcome}
    (hOutcome : outcome = Transcript.outcome level
      (after (skipped.map skippedEvent) ⟨"", errors, some failure⟩)) :
    outcome.Refused ∧ Told level outcome.stderr (skipped.map skippedEvent) (errors.map (·.text))
      [failure.message] := by
  subst hOutcome
  refine ⟨refused_of_failure rfl rfl level, ?_⟩
  apply told hLevel
  · rfl
  · intro event hEvent
    exact isLesser_of_mem_skipped hEvent
  · exact hErrors
  · rfl
  · exact List.forall_mem_singleton.mpr hOneLine

theorem Batch.outcome_of_missing (hMissing : ∃ path ∈ paths, directory.isFile path = false)
    (hLevel : chosenLevel given options ≠ .off) :
    (batch.outcome directory given options skipped paths).Refused ∧
      Told (chosenLevel given options)
        (batch.outcome directory given options skipped paths).stderr (skipped.map skippedEvent)
        ((paths.filter fun path => !directory.isFile path).map fun path =>
          "ERROR " ++ visible ("C++ file at " ++ path.text ++ " does not exist ..."))
        ["Error: " ++ toString (paths.filter fun path => !directory.isFile path).length ++
          " input file(s) do not exist"] := by
  have hSome : missing directory paths ≠ [] := by
    obtain ⟨path, hPath⟩ := hMissing
    exact List.ne_nil_of_mem (mem_missing_iff.mpr hPath)
  have hTexts : ((missing directory paths).map missingEvent).map (·.text) =
      (missing directory paths).map fun path =>
        "ERROR " ++ visible ("C++ file at " ++ path.text ++ " does not exist ...") := by
    rw [List.map_map]
    exact List.map_congr_left fun path _ => text_error _
  have hErrors : ∀ event ∈ (missing directory paths).map missingEvent, event.level = .error := by
    intro event hEvent
    obtain ⟨path, -, rfl⟩ := List.mem_map.mp hEvent
    rfl
  have hOneLine : '\n' ∉ (Failure.missing (missing directory paths).length).message.toList :=
    newline_not_mem_counted (by decide) (by decide) _
  have hRefused := Transcript.refused_told hLevel skipped _ _ hErrors hOneLine rfl
  rw [hTexts] at hRefused
  rw [Batch.outcome, checkPaths_of_missing hSome]
  exact hRefused

theorem Batch.Sound.settled (h : batch.Sound extract paths) (hDone : batch.IsDone)
    (hSuits : ∀ path, directory.isFile path = true → extract.Suits directory path)
    (hLevel : chosenLevel given options ≠ .off) :
    Settled directory extract (chosenLevel given options) (options.format.getD .lines) skipped paths
      (batch.outcome directory given options skipped paths) where
  noInput hPaths := by
    subst hPaths
    exact Transcript.refused_told hLevel skipped [] .noInput (by simp) (by decide) rfl
  absent hMissing := Batch.outcome_of_missing hMissing hLevel
  reported hPaths hFiles :=
    h.reported hDone (fun path hPath => hSuits path (hFiles path hPath)) hLevel hPaths hFiles

end

/-- Only from outside can a level be given at which nothing is shown. -/
theorem chosenLevel_ne_off {given : Option Level} (h : given ≠ some .off) (options : Options) :
    chosenLevel given options ≠ .off := by
  cases given with
  | some level => exact fun hOff => h (congrArg some hOff)
  | none =>
    rw [chosenLevel, Option.getD_none]
    cases options.verbose <;> decide

/-- A run is one of the outcomes that its jobs can end in, they always come to an end, and every
such outcome is settled. -/
structure OutcomesSettled (parser : Parser) (directory : Directory) (given : Option Level)
    (arguments : List String) (options : Options) : Prop where
  actual : ValidGlobs options.globs →
    ∃ (skipped : List Glob.Unreadable) (found : List (List Path)),
      matchAll directory options.globs = ⟨skipped.map skippedEvent, .ok found⟩ ∧
      CanEnd parser directory given options skipped found (run parser directory given arguments)
  noEndlessRun : WellFounded fun next batch =>
    Batch.Step (options.extraction parser directory) batch next
  isDone_of_stuck : ∀ batch,
    (∀ next, ¬Batch.Step (options.extraction parser directory) batch next) → batch.IsDone
  settled : ∀ skipped found outcome,
    CanEnd parser directory given options skipped found outcome →
      Settled directory (options.extraction parser directory)
        (given.getD (if options.verbose then .debug else .info)) (options.format.getD .lines)
        skipped (gather options.files found) outcome

theorem outcomes_settled (parser : Parser) (directory : Directory) (given : Option Level)
    (arguments : List String) (options : Options)
    (hArguments : Request.ofArguments arguments = .ok (.run options)) (hLevel : given ≠ some .off) :
    OutcomesSettled parser directory given arguments options where
  actual hGlobs := by
    obtain ⟨skipped, found, hFound⟩ := matchAll_of_validGlobs hGlobs
    refine ⟨skipped, found, hFound, ?_⟩
    rw [run_eq hArguments]
    exact canEnd_process hFound given
  noEndlessRun := Batch.step_wellFounded _
  isDone_of_stuck _ := Batch.isDone_of_stuck
  settled := by
    rintro skipped found outcome ⟨batch, hReaches, hDone, rfl⟩
    exact (Batch.sound_of_reaches hReaches).settled hDone (fun _ => extraction_suits)
      (chosenLevel_ne_off hLevel options)

theorem OutcomesSettled.settled_of_no_globs {parser : Parser} {directory : Directory}
    {given : Option Level} {arguments : List String} {options : Options}
    (h : OutcomesSettled parser directory given arguments options) (hGlobs : options.globs = []) :
    Settled directory (options.extraction parser directory)
      (given.getD (if options.verbose then .debug else .info)) (options.format.getD .lines)
      [] (gather options.files []) (run parser directory given arguments) := by
  obtain ⟨skipped, found, hMatch, hEnd⟩ := h.actual (by simp [hGlobs, ValidGlobs])
  rw [hGlobs] at hMatch
  obtain rfl : found = [] := (Except.ok.inj (congrArg Search.result hMatch)).symm
  obtain rfl : skipped = [] := List.map_eq_nil_iff.mp (congrArg Search.events hMatch).symm
  exact h.settled [] [] _ hEnd

def twoFiles : Directory := [.file "a.c" ⟨#[]⟩, .file "b.cpp" ⟨#[]⟩]

/-- A function without a name. -/
def bareTree : Tree :=
  .node ⟨"translation_unit", true, 0, 0, 0, 0⟩ [.node ⟨"function_definition", true, 0, 0, 0, 0⟩ []]

/-- A parser that has no tree for a source in C++. -/
def onlyC : Parser := fun language _ => if language = .c then some bareTree else none

/-- If at most one event of the jobs is shown, their order does not matter. -/
theorem Reported.stderr_eq {directory : Directory} {extract : Extraction} {level : Level}
    {format : Report.Format} {paths : List Path} {outcome : Outcome}
    (h : Reported directory extract level format [] paths outcome) (shown : List String)
    (hShown : ((paths.flatMap extract.events).filter (·.isShown level)).map (·.text) = shown)
    (hOne : shown.length ≤ 1) :
    outcome.stderr = cutLines
      (([startedEvent paths].filter (·.isShown level)).map (·.text) ++ shown ++
        ((extract.failing paths).map fun path => "ERROR " ++ visible (reason directory path)) ++
        extract.verdict paths) := by
  obtain ⟨told, hPerm, hTold⟩ := h.stderr
  have hText : (told.filter (·.isShown level)).map (·.text) = shown := by
    have hSame := (hPerm.filter (·.isShown level)).map (·.text)
    rw [hShown] at hSame
    match shown, hOne with
    | [], _ => exact hSame.eq_nil
    | [_], _ => exact hSame.eq_singleton
  rw [hTold.lines_eq, ← hText, ← List.map_append, ← List.filter_append]
  rfl

theorem failing_file_alone :
    Request.ofArguments ["-f", "b.cpp", "-f", "a.c"] =
        .ok (.run { files := [⟨"b.cpp"⟩, ⟨"a.c"⟩] }) ∧
      run onlyC twoFiles none ["-f", "b.cpp", "-f", "a.c"] =
        ⟨1,
          "\x7b\"file\":\"a.c\",\"name\":\"anon-id-1-1\"," ++
            "\"start\":1,\"end\":1,\"properties\":[]\x7d\n",
          ["WARN Failed to extract functions from b.cpp: failed to parse b.cpp",
            "ERROR failed to parse b.cpp", "Error: 1 file(s) could not be processed"]⟩ ∧
      run onlyC twoFiles none ["-f", "b.cpp", "-f", "x.c"] =
        ⟨1, "",
          ["ERROR C++ file at x.c does not exist ...", "Error: 1 input file(s) do not exist"]⟩ ∧
      run onlyC twoFiles none ["--format", "json", "-f", "a.c"] =
        ⟨0,
          "[\n  \x7b\n    \"name\": \"anon-id-1-1\",\n    \"start\": 1,\n" ++
            "    \"end\": 1,\n    \"properties\": []\n  \x7d\n]\n",
          []⟩ := by
  refine ⟨rfl, ?_, ?_, ?_⟩
  · have hSettled := outcomes_settled onlyC twoFiles none ["-f", "b.cpp", "-f", "a.c"]
      { files := [⟨"b.cpp"⟩, ⟨"a.c"⟩] } rfl (by decide)
    have hReport := (hSettled.settled_of_no_globs rfl).reported (by decide) (by decide)
    have hFails : Options.extraction { files := [⟨"b.cpp"⟩, ⟨"a.c"⟩] } onlyC twoFiles ⟨"b.cpp"⟩ =
        .error (.parse "b.cpp") := rfl
    have hNotZero : (run onlyC twoFiles none ["-f", "b.cpp", "-f", "a.c"]).exit ≠ 0 := by
      intro hZero
      obtain ⟨content, hContent⟩ := hReport.exit_eq_zero_iff.mp hZero ⟨"b.cpp"⟩ (by decide)
      rw [hFails] at hContent
      cases hContent
    have hStderr := hReport.stderr_eq
      ["WARN Failed to extract functions from b.cpp: failed to parse b.cpp"] (by decide +kernel)
      (by decide)
    refine Outcome.ext ?_ ?_ ?_
    · exact Nat.le_antisymm hReport.exit_le_one (Nat.one_le_iff_ne_zero.mpr hNotZero)
    · exact hReport.stdout.trans (by decide +kernel)
    · exact hStderr.trans (by decide +kernel)
  · have hSettled := outcomes_settled onlyC twoFiles none ["-f", "b.cpp", "-f", "x.c"]
      { files := [⟨"b.cpp"⟩, ⟨"x.c"⟩] } rfl (by decide)
    obtain ⟨hRefused, hTold⟩ := (hSettled.settled_of_no_globs rfl).absent
      ⟨⟨"x.c"⟩, by decide, by decide⟩
    exact Outcome.ext hRefused.1 hRefused.2 (hTold.lines_eq.trans (by decide +kernel))
  · have hSettled := outcomes_settled onlyC twoFiles none ["--format", "json", "-f", "a.c"]
      { files := [⟨"a.c"⟩], format := some .array } rfl (by decide)
    have hReport := (hSettled.settled_of_no_globs rfl).reported (by decide) (by decide)
    have hStderr := hReport.stderr_eq [] (by decide +kernel) (by decide)
    refine Outcome.ext ?_ ?_ ?_
    · apply hReport.exit_eq_zero_iff.mpr
      exact List.forall_mem_singleton.mpr ⟨_, rfl⟩
    · exact hReport.stdout.trans (by decide +kernel)
    · exact hStderr.trans (by decide +kernel)

end FunctionIndex.Command
