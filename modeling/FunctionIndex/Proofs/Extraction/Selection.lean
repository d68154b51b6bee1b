import FunctionIndex.Extraction.Basic
import FunctionIndex.Proofs.File.Extension

/-! # Selected languages

An extraction first reads the file and then looks for the language. The name a path decides on is
always known, so with a parser that gives a tree for every source only reading can fail. A forced
name that is not known is refused, but only when the file has been read.
-/
namespace FunctionIndex

namespace Directory
set_option autoImplicit false

/-- The path leads to a file, and its bytes are those of the text. -/
def Holds (directory : Directory) (path : Path) (text : String) : Prop :=
  directory.resolve path = .ok (.file text.toUTF8)

theorem fromUTF8?_eq_some_iff (bytes : ByteArray) (text : String) :
    String.fromUTF8? bytes = some text ↔ bytes = text.toUTF8 := by
  rw [String.fromUTF8?]
  split
  · rw [Option.some.injEq]
    constructor
    · rintro rfl
      rfl
    · rintro rfl
      rfl
  · rename_i hInvalid
    simp only [reduceCtorEq, false_iff]
    rintro rfl
    exact hInvalid text.isValidUTF8

theorem read_eq_ok_iff (directory : Directory) (path : Path) (text : String) :
    directory.read path = .ok text ↔ directory.Holds path text := by
  rw [read, Holds]
  cases directory.resolve path with
  | error fault => simp
  | ok place =>
    cases place with
    | folder trail => simp
    | file bytes =>
      rw [Except.ok.injEq, Place.file.injEq, ← fromUTF8?_eq_some_iff]
      dsimp only
      cases String.fromUTF8? bytes <;> simp

theorem exists_read_eq_error_iff (directory : Directory) (path : Path) :
    (∃ fault, directory.read path = .error fault) ↔ ¬∃ text, directory.Holds path text := by
  simp only [← read_eq_ok_iff]
  cases directory.read path <;> simp

/-- A file whose bytes are no text is the only file that cannot be read. -/
theorem fault_of_isFile {directory : Directory} {path : Path} {fault : ReadFault}
    (hFile : directory.isFile path = true) (hFault : directory.read path = .error fault) :
    fault = .notText := by
  rw [isFile] at hFile
  rw [read] at hFault
  cases hPlace : directory.resolve path with
  | error error =>
    rw [hPlace] at hFile
    cases hFile
  | ok place =>
    rw [hPlace] at hFile hFault
    cases place with
    | folder trail => cases hFile
    | file bytes =>
      cases hText : String.fromUTF8? bytes with
      | some text => simp [hText] at hFault
      | none => simpa [hText] using hFault.symm

end Directory

namespace Parser
set_option autoImplicit false

/-- The parser gives a tree for every source. -/
def Total (parser : Parser) : Prop := ∀ language source, (parser language source).isSome

section
variable {parser : Parser} {directory : Directory} {forced : Option String} {path : Path}

theorem extractFile_of_fault {fault : ReadFault} (h : directory.read path = .error fault) :
    parser.extractFile directory forced path = .error (.read path fault) := by
  rw [extractFile, h]

theorem extractFile_of_unknown {text name : String} (hText : directory.Holds path text)
    (hName : Language.ofName? name = none) :
    parser.extractFile directory (some name) path = .error (.unsupportedLanguage name) := by
  rw [extractFile, (directory.read_eq_ok_iff path text).mpr hText]
  simp only [extractSource, Option.getD_some, hName]

theorem extractFile_of_no_tree {text : String} {language : Language}
    (hText : directory.read path = .ok text)
    (hName : forced.getD (Language.ofPath path).name = language.name)
    (hTree : parser language text = none) :
    parser.extractFile directory forced path = .error (.parse path.text) := by
  have hKnown := (Language.ofName?_eq_some_iff language.name language).mpr rfl
  rw [extractFile, hText]
  simp only [extractSource, hName, hKnown, hTree]

theorem extractFile_of_tree {text : String} {language : Language} {tree : Tree}
    (hText : directory.read path = .ok text)
    (hName : forced.getD (Language.ofPath path).name = language.name)
    (hTree : parser language text = some tree) :
    parser.extractFile directory forced path =
      .ok { path, language := language.name, definitions := tree.definitions text } := by
  have hKnown := (Language.ofName?_eq_some_iff language.name language).mpr rfl
  rw [extractFile, hText]
  simp only [extractSource, hName, hKnown, hTree]

theorem extractFile_of_known {text : String} {language : Language}
    (hParser : parser.Total) (hText : directory.Holds path text)
    (hName : forced.getD (Language.ofPath path).name = language.name) :
    ∃ tree, parser language text = some tree ∧ parser.extractFile directory forced path =
      .ok { path, language := language.name, definitions := tree.definitions text } := by
  obtain ⟨tree, hTree⟩ := Option.isSome_iff_exists.mp (hParser language text)
  have hRead := (directory.read_eq_ok_iff path text).mpr hText
  exact ⟨tree, hTree, extractFile_of_tree hRead hName hTree⟩

/-- Without a forced name only reading can fail. -/
theorem extractFile_eq_error_iff (hParser : parser.Total) (error : ExtractionError) :
    parser.extractFile directory none path = .error error ↔
      ∃ fault, directory.read path = .error fault ∧ error = .read path fault := by
  constructor
  · intro hError
    cases hRead : directory.read path with
    | error fault =>
      rw [extractFile_of_fault hRead, Except.error.injEq] at hError
      exact ⟨fault, rfl, hError.symm⟩
    | ok text =>
      have hText := (directory.read_eq_ok_iff path text).mp hRead
      have hName : Option.getD none (Language.ofPath path).name = (Language.ofPath path).name := rfl
      obtain ⟨tree, -, hOk⟩ := extractFile_of_known hParser hText hName
      rw [hOk] at hError
      cases hError
  · rintro ⟨fault, hFault, rfl⟩
    exact extractFile_of_fault hFault

theorem extractFile_eq_unsupported_iff {text name : String} (hParser : parser.Total)
    (hText : directory.Holds path text) :
    parser.extractFile directory (some name) path = .error (.unsupportedLanguage name) ↔
      name ≠ "c" ∧ name ≠ "cpp" := by
  rw [← Language.ofName?_eq_none_iff]
  constructor
  · intro hError
    cases hName : Language.ofName? name with
    | none => rfl
    | some language =>
      obtain rfl := (Language.ofName?_eq_some_iff name language).mp hName
      obtain ⟨tree, -, hOk⟩ := extractFile_of_known hParser hText (Option.getD_some ..)
      rw [hOk] at hError
      cases hError
  · exact extractFile_of_unknown hText

end

/-- Which language the extraction from a file selects, and how the extraction ends. -/
structure LanguageSelected (parser : Parser) (directory : Directory) (path : Path) : Prop where
  isC_iff : (Language.ofPath path).name = "c" ↔
    ∃ stem, stem ≠ "" ∧ path.steps.getLast? = some (stem ++ ".c")
  otherwise : (Language.ofPath path).name ≠ "c" → (Language.ofPath path).name = "cpp"
  same : ∀ other : Path, path.same other = true → Language.ofPath other = Language.ofPath path
  /-- What a path decides on is known. -/
  known : Language.ofName? (Language.ofPath path).name = some (Language.ofPath path)
  fails_iff : (∃ error, parser.extractFile directory none path = .error error) ↔
    ¬∃ text, directory.Holds path text
  fails_with : ∀ error, parser.extractFile directory none path = .error error →
    ∃ fault, directory.read path = .error fault ∧ error = .read path fault
  supported : ∀ name, parser.extractFile directory none path ≠ .error (.unsupportedLanguage name)
  extracted : ∀ text, directory.Holds path text → ∃ tree,
    parser (Language.ofPath path) text = some tree ∧
      parser.extractFile directory none path = .ok
        { path, language := (Language.ofPath path).name, definitions := tree.definitions text }
  forced_unread : ∀ name, (¬∃ text, directory.Holds path text) →
    ∃ fault, directory.read path = .error fault ∧
      parser.extractFile directory (some name) path = .error (.read path fault)
  forced_unsupported_iff : ∀ name text, directory.Holds path text →
    (parser.extractFile directory (some name) path = .error (.unsupportedLanguage name) ↔
      name ≠ "c" ∧ name ≠ "cpp")
  forced_extracted : ∀ name text, directory.Holds path text → name = "c" ∨ name = "cpp" →
    ∃ language tree, language.name = name ∧ parser language text = some tree ∧
      parser.extractFile directory (some name) path = .ok
        { path, language := name, definitions := tree.definitions text }

theorem language_selected (parser : Parser) (directory : Directory) (path : Path)
    (hParser : parser.Total) : LanguageSelected parser directory path where
  isC_iff := by
    rw [← Language.ofPath_eq_c_iff]
    cases Language.ofPath path <;> decide
  otherwise := by cases Language.ofPath path <;> decide
  same other hSame := (Language.ofPath_eq_of_same hSame).symm
  known := (Language.ofName?_eq_some_iff _ _).mpr rfl
  fails_iff := by
    simp only [extractFile_eq_error_iff hParser, ← directory.exists_read_eq_error_iff path]
    constructor
    · rintro ⟨_, fault, hFault, -⟩
      exact ⟨fault, hFault⟩
    · rintro ⟨fault, hFault⟩
      exact ⟨_, fault, hFault, rfl⟩
  fails_with error := (extractFile_eq_error_iff hParser error).mp
  supported name hError := by
    obtain ⟨fault, -, hRead⟩ := (extractFile_eq_error_iff hParser _).mp hError
    cases hRead
  extracted text hText := extractFile_of_known hParser hText rfl
  forced_unread name hUnread := by
    obtain ⟨fault, hFault⟩ := (directory.exists_read_eq_error_iff path).mpr hUnread
    exact ⟨fault, hFault, extractFile_of_fault hFault⟩
  forced_unsupported_iff name text hText := extractFile_eq_unsupported_iff hParser hText
  forced_extracted name text hText hName := by
    obtain ⟨language, rfl⟩ : ∃ language : Language, language.name = name := by
      rcases hName with rfl | rfl
      · exact ⟨.c, rfl⟩
      · exact ⟨.cpp, rfl⟩
    obtain ⟨tree, hTree, hOk⟩ := extractFile_of_known hParser hText (Option.getD_some ..)
    exact ⟨language, tree, rfl, hTree, hOk⟩

/-- A parser that finds nothing in any source, and a folder with one empty file. -/
def blindParser : Parser := fun _ _ => some (.node ⟨"translation_unit", true, 0, 0, 0, 0⟩ [])

def emptyFile : Directory := [.file "a.c" ⟨#[]⟩]

theorem capital_name_refused_after_reading :
    blindParser.Total ∧
      blindParser.extractFile emptyFile none ⟨"a.c"⟩ = .ok ⟨⟨"a.c"⟩, "c", []⟩ ∧
      blindParser.extractFile emptyFile (some "C") ⟨"a.c"⟩ = .error (.unsupportedLanguage "C") ∧
      blindParser.extractFile emptyFile (some "C") ⟨"a.c/"⟩ =
        .error (.read ⟨"a.c/"⟩ .notADirectory) := by
  have hParser : blindParser.Total := fun _ _ => rfl
  have hSelected := language_selected blindParser emptyFile ⟨"a.c"⟩ hParser
  have hSlashed := language_selected blindParser emptyFile ⟨"a.c/"⟩ hParser
  have hText : emptyFile.Holds ⟨"a.c"⟩ "" := rfl
  have hFault : emptyFile.read ⟨"a.c/"⟩ = .error .notADirectory := rfl
  refine ⟨hParser, ?_, ?_, ?_⟩
  · obtain ⟨tree, hTree, hOk⟩ := hSelected.extracted "" hText
    obtain rfl := Option.some.inj hTree
    have hLanguage : Language.ofPath ⟨"a.c"⟩ = .c := by decide
    have hNothing : Tree.definitions "" (.node ⟨"translation_unit", true, 0, 0, 0, 0⟩ []) = [] := by
      decide +kernel
    rw [hOk, hLanguage, hNothing]
    rfl
  · exact (hSelected.forced_unsupported_iff "C" "" hText).mpr (by decide)
  · have hUnread := (emptyFile.exists_read_eq_error_iff ⟨"a.c/"⟩).mp ⟨_, hFault⟩
    obtain ⟨fault, hRead, hError⟩ := hSlashed.forced_unread "C" hUnread
    rw [hFault] at hRead
    obtain rfl := Except.error.inj hRead
    exact hError

end Parser
end FunctionIndex
