import FunctionIndex.Proofs.Definition.Basic
import FunctionIndex.Proofs.Text.Utf8

/-! # What is read of a source

Of the bytes of a source only those of a few nodes are looked at: the child that names a definition,
a class or a namespace, and the specifiers of a function. Two sources that agree there have the same
records, whatever they hold elsewhere and however they go on.
-/
namespace FunctionIndex

/-- Both sources reach the end of the node and have the same bytes where it stands. -/
structure Label.SameBytes (first second : String) (label : Label) : Prop where
  in_first : label.endByte ≤ (Text.Utf8.bytes first).length
  in_second : label.endByte ≤ (Text.Utf8.bytes second).length
  same : ∀ i < label.endByte, label.startByte ≤ i →
    (Text.Utf8.bytes first)[i]? = (Text.Utf8.bytes second)[i]?

instance (first second : String) (label : Label) : Decidable (label.SameBytes first second) :=
  decidable_of_iff
    (label.endByte ≤ (Text.Utf8.bytes first).length ∧
      label.endByte ≤ (Text.Utf8.bytes second).length ∧
      ∀ i < label.endByte, label.startByte ≤ i →
        (Text.Utf8.bytes first)[i]? = (Text.Utf8.bytes second)[i]?)
    ⟨fun ⟨hFirst, hSecond, hSame⟩ => ⟨hFirst, hSecond, hSame⟩,
      fun h => ⟨h.in_first, h.in_second, h.same⟩⟩

namespace Cursor
set_option autoImplicit false

/-- The kinds of child that can name a node, the preferred kind first. -/
def nameKinds (kind : String) : List String :=
  if kind = "function_definition" then ["function_declarator", "reference_declarator"]
  else if kind = "preproc_function_def" then ["identifier"]
  else if kind = "class_specifier" ∨ kind = "struct_specifier" then
    ["type_identifier", "template_type"]
  else if kind = "namespace_definition" then ["namespace_identifier", "identifier"]
  else []

/-- The kinds of child whose word is looked at. -/
def wordKinds (kind : String) : List String :=
  if kind = "function_definition" then ["storage_class_specifier", "virtual_function_specifier"]
  else []

/-- The first named child of the first kind that has one. -/
def nameChild? (kinds : List String) (c : Cursor) : Option Cursor :=
  kinds.findSome? fun kind => c.children.find? fun child => child.label.named && child.kind == kind

/-- The children of a node whose text can be looked at. -/
def readChildren (c : Cursor) : List Cursor :=
  (c.nameChild? (nameKinds c.kind)).toList ++ c.children.filter (hasKindIn (wordKinds c.kind))

theorem nameAmong_eq (source : String) (c : Cursor) (kinds : List String) :
    c.nameAmong source kinds =
      ((c.nameChild? kinds).map (normalizedText source)).getD c.label.anonymousName := by
  induction kinds with
  | nil => rfl
  | cons kind kinds ih =>
    rw [nameAmong, namedChild?, nameChild?, List.findSome?_cons]
    split
    · rename_i child hChild
      rw [hChild]
      rfl
    · rename_i hNone
      rw [hNone]
      exact ih

section Agreement
variable {first second : String}

theorem text_congr {c : Cursor} (h : c.label.SameBytes first second) :
    c.text first = c.text second :=
  Text.Utf8.slice_congr h.in_first h.in_second h.same

theorem nameAmong_congr {c : Cursor} {kinds : List String}
    (h : ∀ child ∈ c.nameChild? kinds, child.label.SameBytes first second) :
    c.nameAmong first kinds = c.nameAmong second kinds := by
  rw [nameAmong_eq, nameAmong_eq]
  cases hChild : c.nameChild? kinds with
  | none => rw [Option.map_none, Option.map_none]
  | some child =>
    rw [Option.map_some, Option.map_some, normalizedText, normalizedText,
      text_congr (h child hChild)]

/-- The two sources agree on all that is looked at from the node. -/
def ReadsSame (first second : String) (c : Cursor) : Prop :=
  ∀ child ∈ c.readChildren, child.label.SameBytes first second

theorem ReadsSame.name {c : Cursor} (h : c.ReadsSame first second) {kinds : List String}
    (hKinds : nameKinds c.kind = kinds) : c.nameAmong first kinds = c.nameAmong second kinds := by
  subst hKinds
  apply nameAmong_congr
  intro child hChild
  exact h child (List.mem_append_left _ (Option.mem_toList.mpr hChild))

theorem ReadsSame.word {c child : Cursor} (h : c.ReadsSame first second)
    (hChild : child ∈ c.children) (hKind : child.kind ∈ wordKinds c.kind) :
    child.text first = child.text second :=
  text_congr (h child (List.mem_append_right _
    (List.mem_filter.mpr ⟨hChild, List.contains_iff_mem.mpr hKind⟩)))

theorem className_congr {c : Cursor} (h : c.ReadsSame first second)
    (hKind : c.hasKindIn Kind.classes = true) : c.className first = c.className second := by
  apply h.name
  rcases List.mem_pair.mp (List.contains_iff_mem.mp hKind) with hKind | hKind
  · rw [hKind]
    decide
  · rw [hKind]
    decide

theorem enclosingClass_congr {c : Cursor} (h : ∀ a ∈ c.ancestors, a.ReadsSame first second) :
    c.enclosingClass first = c.enclosingClass second := by
  rw [enclosingClass, enclosingClass]
  cases hFound : c.ancestorOfKinds? Kind.classes with
  | none => rw [Option.map_none, Option.map_none]
  | some a =>
    have ha := h a (List.mem_of_find?_eq_some hFound)
    rw [Option.map_some, Option.map_some, className_congr ha (List.find?_some hFound)]

theorem scope_congr {c : Cursor} (h : ∀ a ∈ c.ancestors, a.ReadsSame first second) :
    c.scope first = c.scope second := by
  have hNames : c.enclosingNamespaces first = c.enclosingNamespaces second := by
    apply List.map_congr_left
    intro a ha
    obtain ⟨hAncestor, hKind⟩ := List.mem_filter.mp ha
    apply (h a hAncestor).name
    rw [beq_iff_eq.mp hKind]
    decide
  rw [scope, scope, hNames]

theorem structuralProperties_congr {c : Cursor} (hKind : c.kind = "function_definition")
    (h : c.ReadsSame first second) :
    c.structuralProperties first = c.structuralProperties second := by
  have hSpecifiers : c.children.filterMap (specifier? first) =
      c.children.filterMap (specifier? second) := by
    apply List.filterMap_congr
    intro child hChild
    rw [specifier?, specifier?]
    split
    · rename_i hStorage
      rw [h.word hChild (by rw [hKind, hStorage]; decide)]
    · split
      · rename_i hVirtual
        rw [h.word hChild (by rw [hKind, hVirtual]; decide)]
      · rfl
  rw [structuralProperties, structuralProperties, hSpecifiers]

theorem functionRecord_congr {c : Cursor} (hKind : c.kind = "function_definition")
    (h : c.ReadsSame first second) (hAbove : ∀ a ∈ c.ancestors, a.ReadsSame first second) :
    c.functionRecord first = c.functionRecord second := by
  have hName : c.functionName first = c.functionName second := h.name (by rw [hKind]; decide)
  rw [functionRecord, functionRecord, hName, enclosingClass_congr hAbove, scope_congr hAbove,
    structuralProperties_congr hKind h]

theorem macroRecord_congr {c : Cursor} (hKind : c.kind = "preproc_function_def")
    (h : c.ReadsSame first second) : c.macroRecord first = c.macroRecord second := by
  have hName : c.macroName first = c.macroName second := h.name (by rw [hKind]; decide)
  rw [macroRecord, macroRecord, hName]

end Agreement
end Cursor

namespace Tree
set_option autoImplicit false

theorem records_eq_of_same_reads {first second : String} (tree : Tree)
    (h : ∀ c ∈ tree.nodes, ∀ child ∈ c.readChildren, child.label.SameBytes first second) :
    tree.records first = tree.records second := by
  rw [records_eq_map, records_eq_map]
  apply List.map_congr_left
  intro c hc
  obtain ⟨hNode, hFunction | hMacro⟩ := mem_definitionNodes_iff.mp hc
  · have hAbove : ∀ a ∈ c.ancestors, a.ReadsSame first second :=
      fun a ha => h a ((mem_ancestors_iff hNode a).mp ha).1
    rw [Cursor.definition_eq_functionRecord hFunction,
      Cursor.definition_eq_functionRecord hFunction]
    exact Cursor.functionRecord_congr hFunction (h c hNode) hAbove
  · rw [Cursor.definition_eq_macroRecord hMacro, Cursor.definition_eq_macroRecord hMacro]
    exact Cursor.macroRecord_congr hMacro (h c hNode)

/-- A static method of a struct in a namespace, and a macro after the namespace. -/
def methodAndMacro : Tree :=
  .node ⟨"translation_unit", true, 0, 63, 0, 2⟩
    [.node ⟨"namespace_definition", true, 0, 47, 0, 0⟩
      [.node ⟨"namespace_identifier", true, 10, 11, 0, 0⟩ [],
      .node ⟨"struct_specifier", true, 14, 44, 0, 0⟩
        [.node ⟨"type_identifier", true, 21, 22, 0, 0⟩ [],
        .node ⟨"function_definition", true, 25, 42, 0, 0⟩
          [.node ⟨"storage_class_specifier", true, 25, 31, 0, 0⟩ [],
          .node ⟨"primitive_type", true, 32, 35, 0, 0⟩ [],
          .node ⟨"function_declarator", true, 36, 39, 0, 0⟩ [],
          .node ⟨"compound_statement", true, 40, 42, 0, 0⟩ []]]],
    .node ⟨"preproc_function_def", true, 48, 63, 1, 2⟩
      [.node ⟨"identifier", true, 56, 57, 1, 1⟩ [],
      .node ⟨"preproc_arg", true, 61, 62, 1, 1⟩ []]]

/-- All that is not read is overwritten, and the content goes on after the last node. -/
theorem methodAndMacro_records_overwritten :
    methodAndMacro.records
        "namespace n \x7b struct S \x7b static int f() \x7b\x7d \x7d; \x7d\n#define M(x) x\n" =
      methodAndMacro.records
        "          n          S   static     f()                 M and further text" ∧
    methodAndMacro.records
        "          n          S   static     f()                 M and further text" =
      [⟨"f()", 1, 1, some "S", some "n", [.static]⟩,
        ⟨"M", 2, 2, none, none, [.functionMacro]⟩] := by
  refine ⟨records_eq_of_same_reads methodAndMacro ?_, ?_⟩
  · decide +kernel
  · decide +kernel

end Tree
end FunctionIndex
