import FunctionIndex.Command.Run
import Mathlib.Data.List.Perm.Basic
import Mathlib.Logic.Relation

/-! # Batches

The files of a run are extracted as jobs, which go on in any order and at the same time. A job tells
its events one by one, and then stores its result in a place of its own; between any two of these
steps other jobs can go on. The results are taken in the order of the paths. So all that the order
of the steps can change is how the events of different jobs are mixed.
-/
namespace FunctionIndex.Command
set_option autoImplicit false

/-- What the extraction of each path gives. -/
abbrev Extraction := Path → Except ExtractionError FileDefinitions

structure Job where
  path : Path
  /-- The events that are still to be told. -/
  pending : List Event
  stored : Option (Except ExtractionError FileDefinitions)

structure Batch where
  jobs : List Job
  log : List Event

def Extraction.events (extract : Extraction) (path : Path) : List Event :=
  fileEvents path (extract path)

def Job.start (extract : Extraction) (path : Path) : Job := ⟨path, extract.events path, none⟩

def Job.finished (extract : Extraction) (path : Path) : Job := ⟨path, [], some (extract path)⟩

namespace Batch

def start (extract : Extraction) (paths : List Path) : Batch := ⟨paths.map (Job.start extract), []⟩

inductive Step (extract : Extraction) : Batch → Batch → Prop
  | tell (before after : List Job) (job : Job) (event : Event) (events log : List Event)
      (hPending : job.pending = event :: events) :
      Step extract ⟨before ++ job :: after, log⟩
        ⟨before ++ { job with pending := events } :: after, log ++ [event]⟩
  | store (before after : List Job) (job : Job) (log : List Event)
      (hTold : job.pending = []) (hOpen : job.stored = none) :
      Step extract ⟨before ++ job :: after, log⟩
        ⟨before ++ { job with stored := some (extract job.path) } :: after, log⟩

abbrev Reaches (extract : Extraction) : Batch → Batch → Prop :=
  Relation.ReflTransGen (Step extract)

def IsDone (batch : Batch) : Prop := ∀ job ∈ batch.jobs, job.stored.isSome = true

def results (batch : Batch) : List (Except ExtractionError FileDefinitions) :=
  batch.jobs.filterMap (·.stored)

variable {extract : Extraction} {paths : List Path} {batch next : Batch}

/-- A result that is stored is that of the job's path, and no event is missing from the log. -/
structure Sound (extract : Extraction) (paths : List Path) (batch : Batch) : Prop where
  map_path : batch.jobs.map (·.path) = paths
  stored : ∀ job ∈ batch.jobs, ∀ result, job.stored = some result →
    result = extract job.path ∧ job.pending = []
  told : (batch.log ++ batch.jobs.flatMap (·.pending)).Perm (paths.flatMap extract.events)

theorem sound_start (extract : Extraction) (paths : List Path) :
    Sound extract paths (start extract paths) := by
  constructor
  · simp [start, Job.start, Function.comp_def]
  · intro job hJob result hStored
    obtain ⟨path, -, rfl⟩ := List.mem_map.mp hJob
    cases hStored
  · simp [start, Job.start, List.flatMap_map]

theorem Sound.step (h : Sound extract paths batch) (hStep : Step extract batch next) :
    Sound extract paths next := by
  cases hStep with
  | tell before after job event events log hPending =>
    constructor
    · simpa using h.map_path
    · -- A job that still has an event to tell has stored nothing.
      intro other hOther result hStored
      have hJob := h.stored job (by simp)
      rcases List.mem_append.mp hOther with hBefore | hFrom
      · exact h.stored other (List.mem_append_left _ hBefore) result hStored
      · rcases List.mem_cons.mp hFrom with rfl | hAfter
        · rw [(hJob result hStored).2] at hPending
          cases hPending
        · exact h.stored other (by simp [hAfter]) result hStored
    · refine List.Perm.trans ?_ h.told
      simp only [List.flatMap_append, List.flatMap_cons, hPending, List.append_assoc,
        List.cons_append, List.nil_append]
      exact List.Perm.append_left log List.perm_middle.symm
  | store before after job log hTold hOpen =>
    constructor
    · simpa using h.map_path
    · intro other hOther result hStored
      rcases List.mem_append.mp hOther with hBefore | hFrom
      · exact h.stored other (List.mem_append_left _ hBefore) result hStored
      · rcases List.mem_cons.mp hFrom with rfl | hAfter
        · exact ⟨(Option.some.inj hStored).symm, hTold⟩
        · exact h.stored other (by simp [hAfter]) result hStored
    · simpa using h.told

theorem sound_of_reaches (h : Reaches extract (start extract paths) batch) :
    Sound extract paths batch := by
  induction h with
  | refl => exact sound_start extract paths
  | tail _ hStep ih => exact ih.step hStep

theorem Sound.results_eq (h : Sound extract paths batch) (hDone : batch.IsDone) :
    batch.results = paths.map extract := by
  have hStored : ∀ job ∈ batch.jobs, job.stored = some (extract job.path) := by
    intro job hJob
    obtain ⟨result, hResult⟩ := Option.isSome_iff_exists.mp (hDone job hJob)
    rw [hResult, (h.stored job hJob result hResult).1]
  rw [results, ← h.map_path, List.map_map, ← List.filterMap_eq_map]
  exact List.filterMap_congr hStored

theorem Sound.log_perm (h : Sound extract paths batch) (hDone : batch.IsDone) :
    batch.log.Perm (paths.flatMap extract.events) := by
  have hPending : batch.jobs.flatMap (·.pending) = [] := by
    apply List.flatMap_eq_nil_iff.mpr
    intro job hJob
    obtain ⟨result, hResult⟩ := Option.isSome_iff_exists.mp (hDone job hJob)
    exact (h.stored job hJob result hResult).2
  have hTold := h.told
  rwa [hPending, List.append_nil] at hTold

/-- The number of steps that are left. -/
def work (batch : Batch) : Nat :=
  (batch.jobs.flatMap (·.pending)).length + (batch.jobs.filter (·.stored.isNone)).length

theorem work_lt_of_step (h : Step extract batch next) : next.work < batch.work := by
  cases h with
  | tell before after job event events log hPending =>
    cases hStored : job.stored with
    | none => simp [work, hPending, hStored]
    | some result => simp [work, hPending, hStored]
  | store before after job log hTold hOpen =>
    simp [work, hTold, hOpen]

theorem isDone_of_stuck (h : ∀ next, ¬Step extract batch next) : batch.IsDone := by
  intro job hMem
  by_contra hStored
  obtain ⟨before, after, hJobs⟩ := List.append_of_mem hMem
  obtain ⟨jobs, log⟩ := batch
  obtain rfl : jobs = before ++ job :: after := hJobs
  cases hPending : job.pending with
  | nil => exact h _ (.store before after job log hPending (by simpa using hStored))
  | cons event events => exact h _ (.tell before after job event events log hPending)

theorem step_wellFounded (extract : Extraction) :
    WellFounded fun next batch => Step extract batch next :=
  Subrelation.wf work_lt_of_step (measure work).wf

theorem reaches_finished_job (before after : List Job) (path : Path) (log events : List Event) :
    Reaches extract ⟨before ++ ⟨path, events, none⟩ :: after, log⟩
      ⟨before ++ Job.finished extract path :: after, log ++ events⟩ := by
  induction events generalizing log with
  | nil =>
    rw [List.append_nil]
    exact .single (.store before after ⟨path, [], none⟩ log rfl rfl)
  | cons event events ih =>
    have hRest := ih (log ++ [event])
    rw [← List.append_cons] at hRest
    exact .head (.tell before after ⟨path, event :: events, none⟩ event events log rfl) hRest

/-- The jobs can be done one after the other. -/
theorem reaches_finished (before : List Job) (paths : List Path) (log : List Event) :
    Reaches extract ⟨before ++ paths.map (Job.start extract), log⟩
      ⟨before ++ paths.map (Job.finished extract), log ++ paths.flatMap extract.events⟩ := by
  induction paths generalizing before log with
  | nil =>
    rw [List.flatMap_nil, List.append_nil]
    exact .refl
  | cons path paths ih =>
    have hFirst : Reaches extract ⟨before ++ (path :: paths).map (Job.start extract), log⟩
        ⟨before ++ Job.finished extract path :: paths.map (Job.start extract),
          log ++ extract.events path⟩ :=
      reaches_finished_job before (paths.map (Job.start extract)) path log (extract.events path)
    have hRest := ih (before ++ [Job.finished extract path]) (log ++ extract.events path)
    rw [← List.append_cons, ← List.append_cons, List.append_assoc] at hRest
    exact hFirst.trans hRest

/-- The end of a batch whose jobs were done one after the other. -/
def finished (extract : Extraction) (paths : List Path) : Batch :=
  ⟨paths.map (Job.finished extract), paths.flatMap extract.events⟩

theorem finished_isDone (extract : Extraction) (paths : List Path) :
    (finished extract paths).IsDone := by
  intro job hJob
  obtain ⟨path, -, rfl⟩ := List.mem_map.mp hJob
  rfl

theorem reaches_start_finished (extract : Extraction) (paths : List Path) :
    Reaches extract (start extract paths) (finished extract paths) :=
  reaches_finished [] paths []

end Batch
end FunctionIndex.Command
