import FunctionIndex.Proofs.Definition.Basic
import FunctionIndex.Proofs.Text.Decimal
import FunctionIndex.Proofs.Text.Spacing

/-! # Spacing of records

Every text of a record is spaced normally, whatever the source holds at the places where it is read:
names stay so when qualifiers are cut out of them, and so do names joined to a scope.
-/
namespace FunctionIndex

namespace Qualifier
set_option autoImplicit false

theorem spaced_of_cut? {property : Property} {name rest : List Char}
    (h : cut? property name = some rest) : Text.Spaced rest := by
  obtain ⟨parts, -, rfl⟩ := Option.map_eq_some_iff.mp h
  exact Text.spaced_normalizeChars _

/-- Only a pass that finds its keyword touches the name, and it leaves it spaced normally. -/
theorem spaced_stripFrom {name : List Char} (h : Text.Spaced name) (properties : List Property) :
    Text.Spaced (stripFrom name properties).1 := by
  induction properties generalizing name with
  | nil => exact h
  | cons property properties ih =>
    rw [stripFrom]
    split
    · rename_i rest hCut
      exact ih (spaced_of_cut? hCut)
    · exact ih h

theorem spaced_strip {name : String} (h : Text.Spaced name.toList) :
    Text.Spaced (strip name).1.toList := by
  have hRest := spaced_stripFrom h Property.embedded
  rwa [strip, String.toList_ofList]

end Qualifier

namespace Label
set_option autoImplicit false

theorem spaced_anonymousName (label : Label) : Text.Spaced label.anonymousName.toList := by
  have hDigits (n : Nat) : Text.Spaced (Text.Decimal.render n).toList := by
    rw [Text.Decimal.render, String.toList_ofList]
    apply Text.spaced_of_no_blank
    apply List.any_eq_false.mpr
    intro c hc
    simpa using Text.Decimal.forall_isDigit (p := fun c => !Text.isBlank c) (by decide)
      (Text.Decimal.isDigit_of_mem_digits hc)
  have hStart : Text.Spaced "anon-id-".toList := Text.spaced_of_no_blank (by decide)
  have hHyphen : Text.Spaced "-".toList := Text.spaced_of_no_blank (by decide)
  simp only [anonymousName, String.toList_append]
  exact ((hStart.append (hDigits _)).append hHyphen).append (hDigits _)

end Label

namespace Cursor
set_option autoImplicit false

theorem spaced_normalizedText (source : String) (c : Cursor) :
    Text.Spaced (c.normalizedText source).toList := by
  rw [normalizedText, Text.toList_normalize]
  exact Text.spaced_normalizeChars _

theorem spaced_nameAmong (source : String) (c : Cursor) (kinds : List String) :
    Text.Spaced (c.nameAmong source kinds).toList := by
  induction kinds with
  | nil => exact c.label.spaced_anonymousName
  | cons kind kinds ih =>
    rw [nameAmong]
    split
    · exact spaced_normalizedText source _
    · exact ih

theorem spaced_enclosingClass {source : String} {c : Cursor} {name : String}
    (h : c.enclosingClass source = some name) : Text.Spaced name.toList := by
  obtain ⟨a, -, rfl⟩ := Option.map_eq_some_iff.mp h
  exact spaced_nameAmong source a _

theorem spaced_scope {source : String} {c : Cursor} {path : String}
    (h : c.scope source = some path) : Text.Spaced path.toList := by
  rw [scope] at h
  split at h
  · cases h
  · obtain rfl := Option.some.inj h
    rw [String.toList_intercalate]
    apply Text.spaced_intercalate (Text.spaced_of_no_blank (by decide))
    intro part hPart
    obtain ⟨name, hName, rfl⟩ := List.mem_map.mp hPart
    obtain ⟨a, -, rfl⟩ := List.mem_map.mp hName
    exact spaced_nameAmong source a _

end Cursor

namespace Record
set_option autoImplicit false

def texts (record : Record) : List String :=
  record.name :: (record.className.toList ++ record.scope.toList)

end Record

namespace Cursor

theorem spaced_functionRecord (source : String) (c : Cursor) :
    ∀ text ∈ (c.functionRecord source).texts, Text.Spaced text.toList := by
  intro text hText
  rcases List.mem_cons.mp hText with rfl | hText
  · exact Qualifier.spaced_strip (spaced_nameAmong source c Kind.functionNames)
  · rcases List.mem_append.mp hText with hClass | hScope
    · exact spaced_enclosingClass (Option.mem_toList.mp hClass)
    · exact spaced_scope (Option.mem_toList.mp hScope)

theorem spaced_macroRecord (source : String) (c : Cursor) :
    ∀ text ∈ (c.macroRecord source).texts, Text.Spaced text.toList :=
  List.forall_mem_singleton.mpr (spaced_nameAmong source c Kind.macroNames)

end Cursor

namespace Tree
set_option autoImplicit false

theorem records_spaced (source : String) (tree : Tree) :
    ∀ record ∈ tree.records source, ∀ text ∈ record.texts,
      Text.Spaced text.toList ∧ Text.normalize text = text := by
  intro record hRecord text hText
  have hSpaced : Text.Spaced text.toList := by
    rw [records_eq_map] at hRecord
    obtain ⟨c, hc, rfl⟩ := List.mem_map.mp hRecord
    obtain ⟨-, hFunction | hMacro⟩ := mem_definitionNodes_iff.mp hc
    · rw [Cursor.definition_eq_functionRecord hFunction] at hText
      exact c.spaced_functionRecord source text hText
    · rw [Cursor.definition_eq_macroRecord hMacro] at hText
      exact c.spaced_macroRecord source text hText
  exact ⟨hSpaced, (Text.normalize_eq_self_iff text).mpr hSpaced⟩

/-- A function in a namespace without a name, itself in a namespace. -/
def functionInNamespaces : Tree :=
  .node ⟨"translation_unit", true, 0, 35, 0, 1⟩
    [.node ⟨"namespace_definition", true, 0, 35, 0, 1⟩
      [.node ⟨"namespace_identifier", true, 0, 6, 0, 0⟩ [],
      .node ⟨"namespace_definition", true, 6, 35, 0, 1⟩
        [.node ⟨"function_definition", true, 8, 33, 0, 1⟩
          [.node ⟨"function_declarator", true, 8, 33, 0, 1⟩ []]]]]

theorem functionInNamespaces_spaced :
    ∃ record ∈ functionInNamespaces.records "a ::\tb  f(\tint\u00a0const  a )\n const  ",
      record.texts = ["f( int const a )", "anon-id-1-2::a :: b"] ∧ record.properties = [.const] ∧
        ∀ text ∈ record.texts, Text.Spaced text.toList ∧ Text.normalize text = text := by
  let record : Record := ⟨"f( int const a )", 1, 2, none, some "anon-id-1-2::a :: b", [.const]⟩
  have hRecord : record ∈
      functionInNamespaces.records "a ::\tb  f(\tint\u00a0const  a )\n const  " := by
    decide +kernel
  exact ⟨record, hRecord, rfl, rfl, records_spaced _ functionInNamespaces record hRecord⟩

end Tree
end FunctionIndex
