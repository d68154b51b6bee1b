import FunctionIndex.File.Directory
import FunctionIndex.Proofs.Text.Separated
import Mathlib.Tactic.SplitIfs

/-! # Where the same paths lead

Pieces that stay in place do not matter inside a path, because a name that follows needs a folder
too. At the end they do: a file has nothing in it to stay in. So of paths with the same components
that are short enough, one leads to a file exactly when another does, unless it ends in such a
piece.
-/
namespace FunctionIndex

namespace Path
set_option autoImplicit false

/-- A piece that is not empty and not a dot. -/
def isStep (piece : String) : Bool := piece != "" && piece != "."

def steps (path : Path) : List String := path.pieces.filter isStep

def isRooted (path : Path) : Bool := path.text.toList.head? == some '/'

/-- The last piece is a name or leads upwards. -/
def endsInStep (path : Path) : Bool := path.pieces.getLast?.any isStep

theorem isStep_iff (piece : String) : isStep piece = true ↔ ¬(piece = "" ∨ piece = ".") := by
  simp [isStep]

def Component.piece : Component → String
  | .name text => text
  | _ => ".."

theorem piece_of_ofPiece? {piece : String} (h : isStep piece = true) :
    ∃ component, Component.ofPiece? piece = some component ∧ component.piece = piece := by
  rw [Component.ofPiece?, if_neg ((isStep_iff piece).mp h)]
  by_cases hUp : piece = ".."
  · exact ⟨.parent, if_pos hUp, hUp.symm⟩
  · exact ⟨.name piece, if_neg hUp, rfl⟩

theorem map_piece_filterMap_ofPiece? (pieces : List String) :
    (pieces.filterMap Component.ofPiece?).map Component.piece = pieces.filter isStep := by
  induction pieces with
  | nil => rfl
  | cons piece pieces ih =>
    by_cases hStep : isStep piece = true
    · obtain ⟨component, hSome, hPiece⟩ := piece_of_ofPiece? hStep
      rw [List.filter_cons_of_pos hStep, List.filterMap_cons_some hSome, List.map_cons, ih, hPiece]
    · have hNone : Component.ofPiece? piece = none :=
        if_pos (Classical.not_not.mp (mt (isStep_iff piece).mpr hStep))
      rw [List.filter_cons_of_neg hStep, List.filterMap_cons_none hNone, ih]

/-- Components that come from pieces, and not from how a path begins. -/
def Component.isStep : Component → Bool
  | .root => false
  | .current => false
  | _ => true

theorem isStep_of_mem_filterMap {pieces : List String} {component : Component}
    (h : component ∈ pieces.filterMap Component.ofPiece?) : component.isStep = true := by
  obtain ⟨piece, -, hPiece⟩ := List.mem_filterMap.mp h
  rw [Component.ofPiece?] at hPiece
  split_ifs at hPiece <;> cases hPiece <;> rfl

theorem components_filter_isStep (path : Path) :
    path.components.filter Component.isStep = path.pieces.filterMap Component.ofPiece? := by
  rw [components, List.filter_append, List.filter_eq_self.mpr fun _ => isStep_of_mem_filterMap]
  split_ifs <;> rfl

theorem steps_eq (path : Path) :
    path.steps = (path.components.filter Component.isStep).map Component.piece := by
  rw [components_filter_isStep, map_piece_filterMap_ofPiece?, steps]

theorem isRooted_iff (path : Path) : path.isRooted = true ↔ .root ∈ path.components := by
  have hSteps : .root ∉ path.pieces.filterMap Component.ofPiece? :=
    fun h => Bool.false_ne_true (isStep_of_mem_filterMap h)
  rw [isRooted, beq_iff_eq, components]
  split_ifs <;> simp_all

/-- The same paths go through the same steps, and both begin at the root or neither does. -/
theorem steps_eq_of_same {p q : Path} (h : p.same q = true) :
    p.steps = q.steps ∧ p.isRooted = q.isRooted := by
  have hComponents := beq_iff_eq.mp h
  rw [Bool.eq_iff_iff, isRooted_iff, isRooted_iff, steps_eq, steps_eq, hComponents]
  exact ⟨rfl, Iff.rfl⟩

theorem mem_text_iff {path : Path} {c : Char} (hSlash : c ≠ '/') (hDot : c ≠ '.') :
    c ∈ path.text.toList ↔ ∃ piece ∈ path.steps, c ∈ piece.toList := by
  rw [← Text.exists_mem_splitOn_iff hSlash]
  constructor
  · rintro ⟨chars, hChars, hc⟩
    have hPiece : c ∈ (String.ofList chars).toList := by rwa [String.toList_ofList]
    have hStep : isStep (String.ofList chars) = true := by
      rw [isStep_iff]
      rintro (hText | hText)
      · rw [hText] at hPiece
        cases hPiece
      · rw [hText] at hPiece
        exact hDot (List.mem_singleton.mp hPiece)
    exact ⟨_, List.mem_filter.mpr ⟨List.mem_map_of_mem hChars, hStep⟩, hPiece⟩
  · rintro ⟨piece, hPiece, hc⟩
    obtain ⟨chars, hChars, rfl⟩ := List.mem_map.mp (List.mem_filter.mp hPiece).1
    exact ⟨chars, hChars, by rwa [String.toList_ofList] at hc⟩

theorem exists_stem {path : Path} (hSteps : path.steps ≠ []) (hEnd : path.endsInStep = false) :
    ∃ stem, path.text = stem ++ "/" ∨ path.text = stem ++ "/." := by
  obtain ⟨last, hLast⟩ : ∃ last, (path.text.toList.splitOn '/').getLast? = some last :=
    Option.isSome_iff_exists.mp (List.getLast?_isSome.mpr (List.splitOn_ne_nil '/' _))
  have hStay : isStep (String.ofList last) = false := by
    rw [endsInStep, pieces, List.getLast?_map, hLast] at hEnd
    exact hEnd
  -- A path of one piece would have no step.
  have hOther : path.text.toList.splitOn '/' ≠ [last] := by
    intro hOnly
    rw [steps, pieces, hOnly, List.map_singleton,
      List.filter_cons_of_neg (by rw [hStay]; decide)] at hSteps
    exact hSteps rfl
  obtain ⟨stem, hText⟩ := Text.exists_eq_append_last hLast hOther
  have hSpelling : path.text = String.ofList stem ++ "/" ++ String.ofList last := by
    apply String.toList_injective
    rw [hText, String.toList_append, String.toList_append, String.toList_ofList,
      String.toList_ofList, String.toList_ofList, List.append_assoc, List.singleton_append]
  refine ⟨String.ofList stem, ?_⟩
  have hCases := Classical.not_not.mp (mt (isStep_iff _).mpr (by rw [hStay]; decide))
  rcases hCases with hEmpty | hDot
  · left
    rw [hSpelling, hEmpty, String.append_empty]
  · right
    rw [hSpelling, hDot, String.append_assoc]
    rfl

end Path

namespace Place
set_option autoImplicit false

def leadsToFile (place : Place) (pieces : List String) : Bool :=
  match pieces.foldlM step place with
  | .ok place => place.isFile
  | .error _ => false

theorem leadsToFile_of_step {place next : Place} {piece : String} (h : place.step piece = .ok next)
    (pieces : List String) : place.leadsToFile (piece :: pieces) = next.leadsToFile pieces := by
  rw [leadsToFile, leadsToFile, List.foldlM_cons, h]
  rfl

theorem leadsToFile_of_fault {place : Place} {piece : String} {fault : ReadFault}
    (h : place.step piece = .error fault) (pieces : List String) :
    place.leadsToFile (piece :: pieces) = false := by
  rw [leadsToFile, List.foldlM_cons, h]
  rfl

theorem file_leadsToFile (bytes : ByteArray) (pieces : List String) :
    (file bytes).leadsToFile pieces = pieces.isEmpty := by
  cases pieces with
  | nil => rfl
  | cons piece pieces =>
    have hFault : (file bytes).step piece = .error .notADirectory := rfl
    exact leadsToFile_of_fault hFault pieces

theorem folder_step_of_not_isStep (trail : List Directory) {piece : String}
    (h : Path.isStep piece = false) : (folder trail).step piece = .ok (folder trail) := by
  have hStay : piece = "" ∨ piece = "." := by
    rw [← Classical.not_not (a := piece = "" ∨ piece = "."), ← Path.isStep_iff, h]
    exact Bool.false_ne_true
  rw [step, if_pos hStay]

theorem filter_isEmpty_and_getLast?_any (pieces : List String) :
    ((pieces.filter Path.isStep).isEmpty && pieces.getLast?.any Path.isStep) = false := by
  rw [Bool.and_eq_false_iff]
  by_cases h : (pieces.filter Path.isStep).isEmpty = true
  · right
    cases hLast : pieces.getLast? with
    | none => rfl
    | some piece =>
      have hMem := List.mem_of_getLast? hLast
      simpa using List.filter_eq_nil_iff.mp (List.isEmpty_iff.mp h) piece hMem
  · exact .inl (by simpa using h)

/-- Pieces that stay in place matter only at the end. -/
theorem folder_leadsToFile (trail : List Directory) (pieces : List String) :
    (folder trail).leadsToFile pieces =
      ((folder trail).leadsToFile (pieces.filter Path.isStep) && pieces.getLast?.any Path.isStep) := by
  induction pieces generalizing trail with
  | nil => rfl
  | cons piece pieces ih =>
    have hLast : pieces ≠ [] → (piece :: pieces).getLast? = pieces.getLast? := by
      intro hPieces
      rw [List.getLast?_cons_of_ne_nil hPieces]
    cases hStep : Path.isStep piece with
    | false =>
      rw [leadsToFile_of_step (folder_step_of_not_isStep trail hStep),
        List.filter_cons_of_neg (by rw [hStep]; decide)]
      cases pieces with
      | nil => rfl
      | cons => rw [hLast (List.cons_ne_nil _ _), ih]
    | true =>
      rw [List.filter_cons_of_pos hStep]
      cases hNext : (folder trail).step piece with
      | error fault => rw [leadsToFile_of_fault hNext, leadsToFile_of_fault hNext, Bool.false_and]
      | ok next =>
        rw [leadsToFile_of_step hNext, leadsToFile_of_step hNext]
        cases next with
        | folder inner =>
          cases pieces with
          | nil => rfl
          | cons => rw [hLast (List.cons_ne_nil _ _), ih]
        | file bytes =>
          rw [file_leadsToFile, file_leadsToFile]
          cases hPieces : pieces with
          | nil => rw [List.getLast?_singleton, Option.any_some, hStep, Bool.and_true, List.filter_nil]
          | cons first rest =>
            rw [← hPieces, hLast (hPieces ▸ List.cons_ne_nil _ _)]
            rw [filter_isEmpty_and_getLast?_any, hPieces]
            rfl

end Place

namespace Directory
set_option autoImplicit false

/-- What decides whether a path leads to a file, apart from its length and its end. -/
def hasFileAt (directory : Directory) (path : Path) : Bool :=
  !path.steps.any (·.toList.contains '\x00') &&
    (Place.folder (if path.isRooted then [] else [directory])).leadsToFile path.steps

theorem any_steps_contains_zero (path : Path) :
    path.steps.any (·.toList.contains '\x00') = path.text.toList.contains '\x00' := by
  rw [Bool.eq_iff_iff, List.any_eq_true, List.contains_iff_mem,
    Path.mem_text_iff (by decide) (by decide)]
  simp only [List.contains_iff_mem]

theorem isFile_eq (directory : Directory) (path : Path) :
    directory.isFile path =
      (directory.hasFileAt path && (canLookUp path && path.endsInStep)) := by
  rw [isFile, resolve, hasFileAt, any_steps_contains_zero]
  cases hZero : path.text.toList.contains '\x00' with
  | true => rfl
  | false =>
    cases hLength : canLookUp path with
    | false => simp
    | true =>
      have hSteps := Place.folder_leadsToFile (if path.isRooted then [] else [directory]) path.pieces
      by_cases hEmpty : path.text = ""
      · have hNone : path.steps = [] := by
          rw [Path.steps, Path.pieces, hEmpty]
          rfl
        rw [if_neg Bool.false_ne_true, if_neg (by decide), if_pos hEmpty, hNone]
        rfl
      · rw [if_neg Bool.false_ne_true, if_neg (by decide), if_neg hEmpty, Path.endsInStep, Path.steps,
          Bool.not_false, Bool.true_and, Bool.true_and, ← hSteps]
        simp only [Path.isRooted, beq_iff_eq]
        rfl

/-- A path with the components of a file is no file only if it is too long or its end stays in
place. -/
theorem isFile_of_same {directory : Directory} {p q : Path} (h : p.same q = true)
    (hFile : directory.isFile p = true) :
    directory.isFile q = (canLookUp q && q.endsInStep) := by
  obtain ⟨hSteps, hRooted⟩ := Path.steps_eq_of_same h
  have hPlace : directory.hasFileAt q = true := by
    rw [isFile_eq, Bool.and_eq_true] at hFile
    rw [← hFile.1, hasFileAt, hasFileAt, hSteps, hRooted]
  rw [isFile_eq, hPlace, Bool.true_and]

theorem steps_ne_nil_of_hasFileAt {directory : Directory} {path : Path}
    (h : directory.hasFileAt path = true) : path.steps ≠ [] := by
  intro hSteps
  rw [hasFileAt, hSteps, Bool.and_eq_true] at h
  exact Bool.false_ne_true h.2

/-- How a path is spelled that is no file although a path with the same components is one. -/
theorem spelling_of_same {directory : Directory} {p q : Path} (h : p.same q = true)
    (hFile : directory.isFile p = true) (hMissing : directory.isFile q = false) :
    maxPathLength < q.text.utf8ByteSize ∨ ∃ stem, q.text = stem ++ "/" ∨ q.text = stem ++ "/." := by
  have hSteps : q.steps ≠ [] := by
    rw [isFile_eq, Bool.and_eq_true] at hFile
    rw [← (Path.steps_eq_of_same h).1]
    exact steps_ne_nil_of_hasFileAt hFile.1
  rw [isFile_of_same h hFile, Bool.and_eq_false_iff] at hMissing
  rcases hMissing with hLong | hEnd
  · rw [canLookUp, decide_eq_false_iff_not, Nat.not_le] at hLong
    exact .inl hLong
  · exact .inr (Path.exists_stem hSteps hEnd)

end Directory
end FunctionIndex
