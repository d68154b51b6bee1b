import FunctionIndex.Command.Run
import FunctionIndex.Proofs.File.Spelling
import Mathlib.Data.List.Forall2

/-! # Gathered paths

The paths of a run are the given files and after them the files that each pattern matches, pattern
by pattern. Of the paths with the same components the first is kept in its place and as it is
spelled. So paths that repeat earlier ones change nothing, wherever they come.
-/
namespace FunctionIndex.Command
set_option autoImplicit false

/-- What is kept of some paths, one after the other. -/
structure Kept (paths kept : List Path) : Prop where
  /-- A path is kept if no path before its place is the same. -/
  firsts : kept = Path.firsts paths
  sublist : kept.Sublist paths
  apart : kept.Pairwise fun p q => p.same q = false
  unique : ∀ p ∈ paths, ∃! q, q ∈ kept ∧ q.same p = true
  earliest : ∀ p ∈ paths, ∀ q, paths.find? (·.same p) = some q ↔ q ∈ kept ∧ q.same p = true
  again : Path.distinct kept = kept
  repeated : ∀ before extra after, paths = before ++ after →
    (∀ p ∈ extra, ∃ q ∈ before, q.same p = true) →
      Path.distinct (before ++ extra ++ after) = kept

theorem distinct_kept (paths : List Path) : Kept paths (Path.distinct paths) where
  firsts := Path.distinct_eq_firsts paths
  sublist := Path.distinct_sublist paths
  apart := Path.distinct_apart paths
  unique p hp := by
    obtain ⟨first, hFirst⟩ : ∃ first, paths.find? (·.same p) = some first :=
      Option.isSome_iff_exists.mp (List.find?_isSome.mpr ⟨p, hp, Path.same_refl p⟩)
    obtain ⟨hKept, hSame⟩ := (Path.find?_same_eq_some_iff hp first).mp hFirst
    refine ⟨first, ⟨hKept, hSame⟩, ?_⟩
    intro q hq
    rw [← Path.find?_same_eq_some_iff hp, hFirst] at hq
    exact (Option.some.inj hq).symm
  earliest p hp := Path.find?_same_eq_some_iff hp
  again := Path.distinct_of_apart (Path.distinct_apart paths)
  repeated before extra after hPaths hExtra := by
    rw [hPaths, Path.distinct_append_of_same hExtra]

/-- The files that each of some patterns matches, in the order of the patterns. -/
def MatchedBy (directory : Directory) (globs : List String) (found : List (List Path)) : Prop :=
  List.Forall₂ (fun text paths => ∃ pattern, Glob.Pattern.parse text = .ok pattern ∧
    paths = pattern.files directory) globs found

theorem result_matchAll_cons {directory : Directory} {text : String} {pattern : Glob.Pattern}
    (h : Glob.Pattern.parse text = .ok pattern) (globs : List String) :
    (matchAll directory (text :: globs)).result =
      (matchAll directory globs).result.map (pattern.files directory :: ·) := by
  rw [matchAll, h]
  rfl

theorem matchAll_eq_ok_iff (directory : Directory) (globs : List String)
    (found : List (List Path)) :
    (matchAll directory globs).result = .ok found ↔ MatchedBy directory globs found := by
  induction globs generalizing found with
  | nil => rw [MatchedBy, List.forall₂_nil_left_iff, matchAll, Except.ok.injEq, eq_comm]
  | cons text globs ih =>
    rw [MatchedBy, List.forall₂_cons_left_iff]
    cases hPattern : Glob.Pattern.parse text with
    | error error => simp [matchAll, hPattern]
    | ok pattern =>
      rw [result_matchAll_cons hPattern]
      constructor
      · intro h
        cases hRest : (matchAll directory globs).result with
        | error failure =>
          rw [hRest] at h
          cases h
        | ok rest =>
          rw [hRest] at h
          exact ⟨_, rest, ⟨pattern, rfl, rfl⟩, (ih rest).mp hRest, (Except.ok.inj h).symm⟩
      · rintro ⟨_, rest, ⟨_, hSame, rfl⟩, hRest, rfl⟩
        cases hSame
        rw [(ih rest).mpr hRest]
        rfl

theorem isFile_of_mem_files {directory : Directory} {pattern : Glob.Pattern} {path : Path}
    (h : path ∈ pattern.files directory) : directory.isFile path = true := by
  obtain ⟨result, -, hPath⟩ := List.mem_filterMap.mp h
  cases result with
  | error folder => cases hPath
  | ok entry =>
    dsimp only at hPath
    split at hPath
    · cases hPath
    · rename_i hKept
      obtain rfl := Option.some.inj hPath
      rw [Bool.or_eq_true, not_or, Bool.not_eq_true', Bool.not_eq_false] at hKept
      exact hKept.2

theorem MatchedBy.isFile {directory : Directory} {globs : List String} {found : List (List Path)}
    (h : MatchedBy directory globs found) : ∀ p ∈ found.flatten, directory.isFile p = true := by
  induction h with
  | nil => simp
  | cons hFirst _ ih =>
    obtain ⟨pattern, -, rfl⟩ := hFirst
    intro p hp
    rcases List.mem_append.mp hp with hp | hp
    · exact isFile_of_mem_files hp
    · exact ih p hp

/-- What a run collects from the given files and the matches of its patterns, and what it means that
two of these paths are the same. -/
structure Gathered (files : List Path) (found : List (List Path)) : Prop where
  kept : Kept (files ++ found.flatten) (gather files found)
  same_iff_steps : ∀ p q : Path, p.same q = true ↔
    p.isRooted = q.isRooted ∧ p.beginsHere = q.beginsHere ∧ p.steps = q.steps
  same_iff_shortensTo : ∀ p q : Path, p.same q = true ↔
    ∃ r, Path.ShortensTo p r ∧ Path.ShortensTo q r
  matched_iff : ∀ directory globs,
    (matchAll directory globs).result = .ok found ↔ MatchedBy directory globs found
  collected : ∀ directory globs, MatchedBy directory globs found →
    (collect directory files globs).result = .ok (gather files found) ∧
      ∀ p ∈ found.flatten, directory.isFile p = true

theorem paths_gathered (files : List Path) (found : List (List Path)) : Gathered files found where
  kept := distinct_kept (files ++ found.flatten)
  same_iff_steps := Path.same_iff_steps
  same_iff_shortensTo := Path.same_iff_shortensTo
  matched_iff directory globs := matchAll_eq_ok_iff directory globs found
  collected directory globs hMatched := by
    refine ⟨?_, hMatched.isFile⟩
    rw [collect, Search.map, (matchAll_eq_ok_iff directory globs found).mpr hMatched]
    rfl

end FunctionIndex.Command
