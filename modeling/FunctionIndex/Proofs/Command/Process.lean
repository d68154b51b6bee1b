import FunctionIndex.Command.Run
import Mathlib.Data.List.Basic

/-! # How a run is decided

A run without paths, or with a path that is no file, is refused: it fails and reports nothing. Files
that are given decide a run only through the paths that are gathered from them.
-/
namespace FunctionIndex.Command
set_option autoImplicit false

def Outcome.Refused (outcome : Outcome) : Prop := outcome.exit = 1 ∧ outcome.stdout = ""

theorem mem_missing_iff {directory : Directory} {paths : List Path} {path : Path} :
    path ∈ missing directory paths ↔ path ∈ paths ∧ directory.isFile path = false := by
  rw [missing, List.mem_filter, Bool.not_eq_true']

theorem missing_eq_nil_iff {directory : Directory} {paths : List Path} :
    missing directory paths = [] ↔ ∀ path ∈ paths, directory.isFile path = true := by
  simp only [missing, List.filter_eq_nil_iff, Bool.not_eq_true', Bool.not_eq_false]

theorem Transcript.refused_of_failure {transcript : Transcript} {failure : Failure}
    (hFailure : transcript.failure = some failure) (hReport : transcript.report = "")
    (level : Level) : (transcript.outcome level).Refused := by
  refine ⟨?_, hReport⟩
  rw [outcome, hFailure]
  rfl

section
variable {parser : Parser} {directory : Directory} {options : Options}

theorem run_eq {arguments : List String}
    (h : Request.ofArguments arguments = .ok (.run options)) (given : Option Level) :
    run parser directory given arguments =
      (process parser directory options).outcome (chosenLevel given options) := by
  rw [run, h]

theorem checkPaths_of_missing {paths : List Path} (h : missing directory paths ≠ [])
    (next : Transcript) :
    checkPaths directory paths next =
      ⟨"", (missing directory paths).map missingEvent,
        some (.missing (missing directory paths).length)⟩ := by
  have hPaths : paths ≠ [] := by
    rintro rfl
    exact h rfl
  rw [checkPaths, if_neg (by simpa using hPaths), if_neg (by simpa using h)]

theorem checkPaths_of_files {paths : List Path} (hPaths : paths ≠ [])
    (h : missing directory paths = []) (next : Transcript) :
    checkPaths directory paths next = next := by
  rw [checkPaths, if_neg (by simpa using hPaths), if_pos (by simpa using h)]

theorem process_of_found {events : List Event} {found : List (List Path)}
    (h : matchAll directory options.globs = ⟨events, .ok found⟩) :
    process parser directory options =
      (processPaths parser directory options (gather options.files found)).after events := by
  rw [process, collect, h]
  rfl

theorem process_of_failure {events : List Event} {failure : Failure}
    (h : matchAll directory options.globs = ⟨events, .error failure⟩) :
    process parser directory options = ⟨"", events, some failure⟩ := by
  rw [process, collect, h]
  rfl

/-- Files matter only through what is gathered from them. -/
theorem process_congr_files {kept : List Path} (h : gather kept = gather options.files) :
    process parser directory { options with files := kept } =
      process parser directory options := by
  simp only [process, collect, h]
  rfl

/-- A path that is no file refuses the run, whatever the patterns find. -/
theorem process_refused
    (h : ∀ found, missing directory (gather options.files found) ≠ []) (level : Level) :
    ((process parser directory options).outcome level).Refused := by
  rcases hMatch : matchAll directory options.globs with ⟨events, failure | found⟩
  · rw [process_of_failure hMatch]
    exact Transcript.refused_of_failure rfl rfl level
  · rw [process_of_found hMatch, processPaths, checkPaths_of_missing (h found)]
    exact Transcript.refused_of_failure rfl rfl level

end
end FunctionIndex.Command
