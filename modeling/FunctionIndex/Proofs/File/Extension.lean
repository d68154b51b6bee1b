import FunctionIndex.Language
import FunctionIndex.Proofs.File.Distinct
import FunctionIndex.Proofs.File.Spelling
import Mathlib.Data.List.TakeWhile

/-! # Extensions and languages

The file name of a path is its last step, unless that leads upwards. The extension of a name is what
follows its last dot, if there is something before that dot. A path is one of C exactly when its
extension is a small c, and one of C++ in every other case.
-/
namespace FunctionIndex

namespace Path
set_option autoImplicit false

theorem extensionOf?_append {stem extension : List Char} (hStem : stem ≠ [])
    (hExtension : '.' ∉ extension) : extensionOf? (stem ++ '.' :: extension) = some extension := by
  obtain ⟨last, rest, hReverse⟩ := List.exists_cons_of_ne_nil (mt List.reverse_eq_nil_iff.mp hStem)
  have hText : (stem ++ '.' :: extension).reverse = extension.reverse ++ '.' :: last :: rest := by
    rw [List.reverse_append, List.reverse_cons, hReverse, List.append_assoc, List.singleton_append]
  have hNoDot : ∀ c ∈ extension.reverse, (c != '.') = true := by
    intro c hc
    rw [bne_iff_ne]
    rintro rfl
    exact hExtension (List.mem_reverse.mp hc)
  rw [extensionOf?, hText, List.dropWhile_append_of_pos hNoDot, List.takeWhile_append_of_pos hNoDot]
  simp

theorem exists_stem_of_extensionOf? {name extension : List Char}
    (h : extensionOf? name = some extension) :
    ∃ stem, stem ≠ [] ∧ '.' ∉ extension ∧ name = stem ++ '.' :: extension := by
  have hHead := List.head?_dropWhile_not (· != '.') name.reverse
  rw [extensionOf?] at h
  split at h
  · rename_i dot last rest hDrop
    obtain rfl := Option.some.inj h
    rw [hDrop, List.head?_cons] at hHead
    obtain rfl : dot = '.' := by simpa using hHead
    refine ⟨(last :: rest).reverse, by simp, ?_, ?_⟩
    · rw [List.mem_reverse]
      intro hMem
      simpa using List.mem_takeWhile_imp hMem
    · calc name = name.reverse.reverse := name.reverse_reverse.symm
        _ = (name.reverse.takeWhile (· != '.') ++ '.' :: last :: rest).reverse := by
          rw [← hDrop, List.takeWhile_append_dropWhile]
        _ = _ := by
          rw [List.reverse_append, List.reverse_cons, List.append_assoc, List.singleton_append]
  · cases h

theorem extensionOf?_eq_some_iff {name extension : List Char} :
    extensionOf? name = some extension ↔
      ∃ stem, stem ≠ [] ∧ '.' ∉ extension ∧ name = stem ++ '.' :: extension := by
  constructor
  · exact exists_stem_of_extensionOf?
  · rintro ⟨stem, hStem, hExtension, rfl⟩
    exact extensionOf?_append hStem hExtension

theorem getLast?_components {path : Path} {last : String} (h : path.steps.getLast? = some last) :
    path.components.getLast? = Component.ofPiece? last := by
  have hStep : isStep last = true := (List.mem_filter.mp (List.mem_of_getLast? h)).2
  obtain ⟨component, hComponent, -⟩ := piece_of_ofPiece? hStep
  obtain ⟨init, hSteps⟩ := List.getLast?_eq_some_iff.mp h
  rw [components_eq, hSteps, List.filterMap_append, List.filterMap_cons_some hComponent,
    List.filterMap_nil, ← List.append_assoc, List.getLast?_concat, hComponent]

theorem fileName?_eq_some_iff (path : Path) (name : String) :
    path.fileName? = some name ↔ path.steps.getLast? = some name ∧ name ≠ ".." := by
  cases hLast : path.steps.getLast? with
  | none =>
    -- How a path begins is no file name.
    rw [fileName?, components_eq, List.getLast?_eq_none_iff.mp hLast]
    cases path.isRooted <;> cases path.beginsHere <;> simp
  | some last =>
    have hStep : isStep last = true := (List.mem_filter.mp (List.mem_of_getLast? hLast)).2
    rw [fileName?, getLast?_components hLast, Component.ofPiece?,
      if_neg ((isStep_iff last).mp hStep), Option.some.injEq]
    split_ifs with hUp
    · simp only [false_iff, not_and_not_right]
      rintro rfl
      exact hUp
    · simp only [Option.some.injEq, iff_self_and]
      rintro rfl
      exact hUp

theorem toList_eq_append_dot_iff (name extension : String) :
    (∃ stem, stem ≠ [] ∧ '.' ∉ extension.toList ∧ name.toList = stem ++ '.' :: extension.toList) ↔
      ∃ stem, stem ≠ "" ∧ '.' ∉ extension.toList ∧ name = stem ++ "." ++ extension := by
  constructor
  · rintro ⟨stem, hStem, hDot, hName⟩
    refine ⟨String.ofList stem, by simpa using hStem, hDot, String.toList_injective ?_⟩
    simp [hName]
  · rintro ⟨stem, hStem, hDot, rfl⟩
    exact ⟨stem.toList, by simpa using hStem, hDot, by simp⟩

theorem extension?_eq_some_iff (path : Path) (extension : String) :
    path.extension? = some extension ↔ ∃ name, path.steps.getLast? = some name ∧ name ≠ ".." ∧
      ∃ stem, stem ≠ "" ∧ '.' ∉ extension.toList ∧ name = stem ++ "." ++ extension := by
  have hText (chars : Option (List Char)) :
      chars.map String.ofList = some extension ↔ chars = some extension.toList := by
    rw [Option.map_eq_some_iff]
    constructor
    · rintro ⟨inner, rfl, rfl⟩
      rw [String.toList_ofList]
    · intro h
      exact ⟨_, h, String.ofList_toList⟩
  rw [extension?, Option.bind_eq_some_iff]
  simp only [hText, extensionOf?_eq_some_iff, toList_eq_append_dot_iff, fileName?_eq_some_iff,
    and_assoc]

theorem extension?_eq_of_same {p q : Path} (h : p.same q = true) : p.extension? = q.extension? := by
  rw [extension?, extension?, fileName?, fileName?, (same_iff p q).mp h]

end Path

namespace Language
set_option autoImplicit false

theorem ofExtension?_eq_c_iff (extension : String) :
    ofExtension? extension = some .c ↔ extension = "c" := by
  constructor
  · intro h
    rw [ofExtension?] at h
    have hListed := List.find?_some h
    simpa [extensions] using hListed
  · rintro rfl
    rfl

theorem ofPath_eq_c_iff_extension (path : Path) :
    ofPath path = .c ↔ path.extension? = some "c" := by
  rw [ofPath]
  cases hExtension : path.extension? with
  | none => simp
  | some extension =>
    rw [Option.bind_some, Option.some.injEq, ← ofExtension?_eq_c_iff]
    cases ofExtension? extension <;> simp

/-- A path is one of C exactly when its last step is something followed by a dot and a small c. -/
theorem ofPath_eq_c_iff (path : Path) :
    ofPath path = .c ↔ ∃ stem, stem ≠ "" ∧ path.steps.getLast? = some (stem ++ ".c") := by
  have hUp (stem : String) : stem ++ ".c" ≠ ".." := by
    intro h
    have hLast := congrArg (fun text => text.toList.getLast?) h
    simp at hLast
  rw [ofPath_eq_c_iff_extension, Path.extension?_eq_some_iff]
  constructor
  · rintro ⟨_, hLast, -, stem, hStem, -, rfl⟩
    exact ⟨stem, hStem, by rw [hLast, String.append_assoc]; rfl⟩
  · rintro ⟨stem, hStem, hLast⟩
    exact ⟨_, hLast, hUp stem, stem, hStem, by decide, by rw [String.append_assoc]; rfl⟩

example :
    ofPath ⟨"src/a.tar.c/."⟩ = .c ∧ ofPath ⟨"src/.c"⟩ = .cpp ∧ ofPath ⟨"a.c/.."⟩ = .cpp := by decide

theorem ofPath_eq_of_same {p q : Path} (h : p.same q = true) : ofPath p = ofPath q := by
  rw [ofPath, ofPath, Path.extension?_eq_of_same h]

theorem ofName?_eq_some_iff (name : String) (language : Language) :
    ofName? name = some language ↔ language.name = name := by
  constructor
  · intro h
    rw [ofName?] at h
    have hName := List.find?_some h
    exact beq_iff_eq.mp hName
  · rintro rfl
    cases language <;> rfl

theorem ofName?_eq_none_iff (name : String) :
    ofName? name = none ↔ name ≠ "c" ∧ name ≠ "cpp" := by
  simp [ofName?, all, Language.name, ne_comm]

end Language
end FunctionIndex
