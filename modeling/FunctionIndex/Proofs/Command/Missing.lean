import FunctionIndex.Proofs.Command.Process
import FunctionIndex.Proofs.File.Distinct
import FunctionIndex.Proofs.File.Resolve

/-! # Missing files

A given path that is no file is noticed, and refuses the run, unless a path with the same components
was given before it and is a file. Then only that one is looked at, and the run is the one without
the missing path. Such a path ends in a slash or in a slash and a dot, or it is too long.
-/
namespace FunctionIndex.Command
set_option autoImplicit false

section
variable {directory : Directory} {files : List Path}

/-- Some path is no file, and no path before it with the same components is one. -/
def Noticed (directory : Directory) (files : List Path) : Prop :=
  ∃ before p after, files = before ++ p :: after ∧ directory.isFile p = false ∧
    ∀ q ∈ before, q.same p = true → directory.isFile q = false

/-- Some path is no file, and no other with the same components is one. -/
def Absent (directory : Directory) (files : List Path) : Prop :=
  ∃ p ∈ files, directory.isFile p = false ∧
    ∀ q ∈ files, q.same p = true → directory.isFile q = false

theorem Noticed.missing_ne_nil (h : Noticed directory files) (found : List (List Path)) :
    missing directory (gather files found) ≠ [] := by
  obtain ⟨before, p, after, rfl, hMissing, hBefore⟩ := h
  obtain ⟨q, hq, hSame, hPlace⟩ := Path.exists_mem_distinct before (after ++ found.flatten) p
  have hGathered : q ∈ gather (before ++ p :: after) found := by
    rwa [gather, List.append_assoc, List.cons_append]
  have hNoFile : directory.isFile q = false := by
    rcases hPlace with hBeforeP | rfl
    · exact hBefore q hBeforeP hSame
    · exact hMissing
  exact List.ne_nil_of_mem (mem_missing_iff.mpr ⟨hGathered, hNoFile⟩)

/-- Before a missing path that is not noticed there is the file it is the same as. -/
theorem exists_same_of_not_noticed {before after : List Path} {p : Path}
    (h : ¬Noticed directory (before ++ p :: after)) (hMissing : directory.isFile p = false) :
    ∃ q ∈ before, q.same p = true ∧ directory.isFile q = true := by
  by_contra hNone
  refine h ⟨before, p, after, rfl, hMissing, fun q hq hSame => ?_⟩
  rw [← Bool.not_eq_true]
  exact fun hFile => hNone ⟨q, hq, hSame, hFile⟩

/-- The paths are taken from `after` one by one; of those before, only the files are kept. -/
theorem distinct_filter_isFile_append (before after : List Path)
    (h : ¬Noticed directory (before ++ after)) (extra : List Path) :
    Path.distinct (before.filter directory.isFile ++ (after ++ extra)) =
      Path.distinct ((before ++ after).filter directory.isFile ++ extra) := by
  induction after generalizing before with
  | nil => rw [List.nil_append, List.append_nil]
  | cons p after ih =>
    have hNext := ih (before ++ [p]) (by rwa [← List.append_cons])
    rw [← List.append_cons, List.filter_append] at hNext
    rw [← hNext, List.cons_append]
    cases hFile : directory.isFile p with
    | true =>
      rw [List.filter_cons_of_pos hFile, List.filter_nil, List.append_assoc, List.singleton_append]
    | false =>
      obtain ⟨q, hq, hSame, hKept⟩ := exists_same_of_not_noticed h hFile
      rw [List.filter_cons_of_neg (by rw [hFile]; decide), List.filter_nil, List.append_nil,
        Path.distinct_append_cons_of_same (List.mem_filter.mpr ⟨hq, hKept⟩) hSame]

theorem gather_filter_isFile (h : ¬Noticed directory files) :
    gather (files.filter directory.isFile) = gather files := by
  funext found
  have hAll := distinct_filter_isFile_append [] files h found.flatten
  rw [List.filter_nil, List.nil_append, List.nil_append] at hAll
  rw [gather, gather, hAll]

theorem process_filter_isFile {parser : Parser} {options : Options}
    (h : ¬Noticed directory options.files) :
    process parser directory { options with files := options.files.filter directory.isFile } =
      process parser directory options :=
  process_congr_files (gather_filter_isFile h)

/-- With the files in front nothing else needs to be noticed. -/
theorem not_noticed_files_first
    (h : ∀ p ∈ files, directory.isFile p = false →
      ∃ q ∈ files, q.same p = true ∧ directory.isFile q = true) :
    ¬Noticed directory
      (files.filter directory.isFile ++ files.filter fun path => !directory.isFile path) := by
  rintro ⟨before, p, after, hSplit, hMissing, hBefore⟩
  have hp : p ∈ files := by
    have hMem : p ∈ before ++ p :: after := List.mem_append_right before List.mem_cons_self
    rw [← hSplit] at hMem
    rcases List.mem_append.mp hMem with hKept | hDropped
    · exact (List.mem_filter.mp hKept).1
    · exact (List.mem_filter.mp hDropped).1
  obtain ⟨q, hq, hSame, hFile⟩ := h p hp hMissing
  -- All files stand before `p`, as `p` is none of them.
  have hPrefix : q ∈ before := by
    have hKept : q ∈ files.filter directory.isFile := List.mem_filter.mpr ⟨hq, hFile⟩
    rcases List.append_eq_append_iff.mp hSplit with ⟨rest, rfl, -⟩ | ⟨rest, hFiles, hRest⟩
    · exact List.mem_append_left rest hKept
    · cases rest with
      | nil =>
        rw [List.append_nil] at hFiles
        rwa [← hFiles]
      | cons first rest =>
        have hFirst : first = p := (List.cons.inj hRest).1.symm
        have hFileP : p ∈ files.filter directory.isFile := by
          rw [hFiles, hFirst]
          exact List.mem_append_right before List.mem_cons_self
        rw [(List.mem_filter.mp hFileP).2] at hMissing
        cases hMissing
  rw [hBefore q hPrefix hSame] at hFile
  cases hFile

theorem noticed_in_every_order_iff :
    (∀ others, others.Perm files → Noticed directory others) ↔ Absent directory files := by
  constructor
  · intro h
    by_contra hNone
    refine not_noticed_files_first ?_ (h _ (List.filter_append_perm directory.isFile files))
    intro p hp hMissing
    by_contra hSame
    refine hNone ⟨p, hp, hMissing, fun q hq hSameP => ?_⟩
    rw [← Bool.not_eq_true]
    exact fun hFile => hSame ⟨q, hq, hSameP, hFile⟩
  · rintro ⟨p, hp, hMissing, hSame⟩ others hPerm
    obtain ⟨before, after, hOthers⟩ := List.append_of_mem (hPerm.mem_iff.mpr hp)
    refine ⟨before, p, after, hOthers, hMissing, fun q hq => hSame q (hPerm.mem_iff.mp ?_)⟩
    rw [hOthers]
    exact List.mem_append_left _ hq

end

/-- What becomes of a run on files of which some are missing. -/
structure MissingSettled (parser : Parser) (directory : Directory) (given : Option Level)
    (options : Options) (outcome : Outcome) : Prop where
  refused : Noticed directory options.files → outcome.Refused
  passedOver : ¬Noticed directory options.files →
    outcome = (process parser directory
      { options with files := options.files.filter directory.isFile }).outcome
        (chosenLevel given options) ∧
    ∀ p ∈ options.files, directory.isFile p = false →
      (∃ before q middle after, options.files = before ++ q :: middle ++ p :: after ∧
        q.same p = true ∧ directory.isFile q = true) ∧
      (Directory.maxPathLength < p.text.utf8ByteSize ∨
        ∃ stem, p.text = stem ++ "/" ∨ p.text = stem ++ "/.")
  inEveryOrder : Absent directory options.files ↔
    ∀ files, files.Perm options.files → Noticed directory files
  anyOrder_refused : Absent directory options.files →
    ∀ others otherOptions, Request.ofArguments others = .ok (.run otherOptions) →
      otherOptions.files.Perm options.files → (run parser directory given others).Refused

/-- A run is refused if a missing file is noticed, and else it is the one without missing files. It
is noticed in every order exactly if no file is the same as it. -/
theorem missing_files_settled (parser : Parser) (directory : Directory) (given : Option Level)
    (arguments : List String) (options : Options)
    (hArguments : Request.ofArguments arguments = .ok (.run options)) :
    MissingSettled parser directory given options (run parser directory given arguments) := by
  rw [run_eq hArguments]
  constructor
  · intro hNoticed
    exact process_refused hNoticed.missing_ne_nil _
  · intro hPassed
    constructor
    · rw [process_filter_isFile hPassed]
    · intro p hp hMissing
      obtain ⟨before, after, hFiles⟩ := List.append_of_mem hp
      rw [hFiles] at hPassed
      obtain ⟨q, hq, hSame, hFile⟩ := exists_same_of_not_noticed hPassed hMissing
      obtain ⟨first, middle, rfl⟩ := List.append_of_mem hq
      constructor
      · exact ⟨first, q, middle, after, hFiles, hSame, hFile⟩
      · exact Directory.spelling_of_same hSame hFile hMissing
  · exact noticed_in_every_order_iff.symm
  · intro hAbsent others otherOptions hOthers hPerm
    have hNoticed := noticed_in_every_order_iff.mpr hAbsent otherOptions.files hPerm
    rw [run_eq hOthers]
    exact process_refused hNoticed.missing_ne_nil _

/-- A folder with one file, and a parser that finds nothing in it. -/
def oneFile : Directory := [.file "a.c" ⟨#[]⟩]

def bareParser : Parser := fun _ _ => some (.node ⟨"translation_unit", true, 0, 0, 0, 0⟩ [])

theorem not_noticed_slashed : ¬Noticed oneFile [⟨"a.c"⟩, ⟨"a.c/"⟩] := by
  rintro ⟨before, p, after, hSplit, hMissing, hBefore⟩
  have hFile : oneFile.isFile ⟨"a.c"⟩ = true := by decide
  cases before with
  | nil =>
    rw [← (List.cons.inj hSplit).1, hFile] at hMissing
    cases hMissing
  | cons q before =>
    obtain ⟨rfl, hRest⟩ := List.cons.inj hSplit
    cases before with
    | nil =>
      obtain ⟨rfl, -⟩ := List.cons.inj hRest
      rw [hBefore _ List.mem_cons_self (by decide)] at hFile
      cases hFile
    | cons q before => simp at hRest

theorem slashed_file_settled :
    Request.ofArguments ["-f", "a.c/", "-f", "a.c"] =
        .ok (.run { files := [⟨"a.c/"⟩, ⟨"a.c"⟩] }) ∧
      (run bareParser oneFile none ["-f", "a.c/", "-f", "a.c"]).Refused ∧
      Request.ofArguments ["-f", "a.c", "-f", "a.c/"] =
        .ok (.run { files := [⟨"a.c"⟩, ⟨"a.c/"⟩] }) ∧
      run bareParser oneFile none ["-f", "a.c", "-f", "a.c/"] =
        run bareParser oneFile none ["-f", "a.c"] := by
  have hSlashedFirst : Noticed oneFile [⟨"a.c/"⟩, ⟨"a.c"⟩] :=
    ⟨[], ⟨"a.c/"⟩, [⟨"a.c"⟩], rfl, by decide, by simp⟩
  refine ⟨rfl, ?_, rfl, ?_⟩
  · exact (missing_files_settled bareParser oneFile none ["-f", "a.c/", "-f", "a.c"]
      { files := [⟨"a.c/"⟩, ⟨"a.c"⟩] } rfl).refused hSlashedFirst
  · have hSettled := missing_files_settled bareParser oneFile none ["-f", "a.c", "-f", "a.c/"]
      { files := [⟨"a.c"⟩, ⟨"a.c/"⟩] } rfl
    have hKept : [⟨"a.c"⟩, ⟨"a.c/"⟩].filter oneFile.isFile = [⟨"a.c"⟩] := by decide
    rw [(hSettled.passedOver not_noticed_slashed).1, hKept]
    rfl

/-- It is wrong that a missing file always refuses the run, or that the order does not matter. -/
theorem missing_file_not_always_refused :
    (¬∀ (parser : Parser) (directory : Directory) (given : Option Level) (arguments : List String)
      (options : Options), Request.ofArguments arguments = .ok (.run options) →
        (∃ p ∈ options.files, directory.isFile p = false) →
          (run parser directory given arguments).Refused) ∧
    ¬∀ (parser : Parser) (directory : Directory) (given : Option Level)
      (arguments others : List String) (options otherOptions : Options),
        Request.ofArguments arguments = .ok (.run options) →
          Request.ofArguments others = .ok (.run otherOptions) →
            options.files.Perm otherOptions.files →
              (run parser directory given arguments).exit ≠ 0 →
                (run parser directory given others).exit ≠ 0 := by
  have hSucceeds : (run bareParser oneFile none ["-f", "a.c", "-f", "a.c/"]).exit = 0 := by decide
  constructor
  · intro h
    have hRefused := h bareParser oneFile none ["-f", "a.c", "-f", "a.c/"]
      { files := [⟨"a.c"⟩, ⟨"a.c/"⟩] } rfl ⟨⟨"a.c/"⟩, by simp, by decide⟩
    rw [Outcome.Refused, hSucceeds] at hRefused
    exact absurd hRefused.1 (by decide)
  · intro h
    have hFails : (run bareParser oneFile none ["-f", "a.c/", "-f", "a.c"]).exit ≠ 0 := by decide
    exact h bareParser oneFile none ["-f", "a.c/", "-f", "a.c"] ["-f", "a.c", "-f", "a.c/"]
      { files := [⟨"a.c/"⟩, ⟨"a.c"⟩] } { files := [⟨"a.c"⟩, ⟨"a.c/"⟩] } rfl rfl
      (List.Perm.swap _ _ []) hFails hSucceeds

end FunctionIndex.Command
