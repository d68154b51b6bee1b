import FunctionIndex.Proofs.Definition.Laminar
import FunctionIndex.Proofs.Definition.Outline
import FunctionIndex.Proofs.Definition.Stripping
import FunctionIndex.Proofs.Text.Decimal
import FunctionIndex.Proofs.Tree.Climb

/-! # Anonymous names

A node without a child to name it is named after its lines. No qualifier is found in such a name, as
it holds no space, so the name of a function keeps it. The lines can be read back from the name,
since no digit is a hyphen: two nodes get the same name exactly when they stand on the same lines.
-/
namespace FunctionIndex

namespace Label
set_option autoImplicit false

def linesName (first last : Nat) : String :=
  "anon-id-" ++ Text.Decimal.render first ++ "-" ++ Text.Decimal.render last

theorem toList_linesName (first last : Nat) :
    (linesName first last).toList =
      "anon-id-".toList ++ (Text.Decimal.digits first ++ '-' :: Text.Decimal.digits last) := by
  simp only [linesName, Text.Decimal.render, String.toList_append, String.toList_ofList,
    List.append_assoc]
  rfl

theorem linesName_inj {first last otherFirst otherLast : Nat} :
    linesName first last = linesName otherFirst otherLast ↔
      first = otherFirst ∧ last = otherLast := by
  have hHyphen := Text.Decimal.not_mem_digits (c := '-') (by decide)
  rw [← String.toList_inj, toList_linesName, toList_linesName, List.append_cancel_left_eq,
    List.append_cons_inj_of_notMem (hHyphen first) (hHyphen last),
    Text.Decimal.digits_injective.eq_iff, Text.Decimal.digits_injective.eq_iff]
  simp

theorem space_not_mem_linesName (first last : Nat) : ' ' ∉ (linesName first last).toList := by
  have hSpace := Text.Decimal.not_mem_digits (c := ' ') (by decide)
  rw [toList_linesName]
  simp [hSpace]

/-- No qualifier stands in a name made of lines. -/
theorem strip_linesName (first last : Nat) :
    Qualifier.strip (linesName first last) = (linesName first last, []) := by
  apply Qualifier.strip_of_absent
  intro property _ hHere
  exact space_not_mem_linesName first last (hHere.subset List.mem_cons_self)

theorem anonymousName_eq_iff (a b : Label) :
    a.anonymousName = b.anonymousName ↔ a.startRow = b.startRow ∧ a.endRow = b.endRow := by
  have hName (label : Label) :
      label.anonymousName = linesName (label.startRow + 1) (label.endRow + 1) := rfl
  rw [hName, hName, linesName_inj, Nat.add_right_cancel_iff, Nat.add_right_cancel_iff]

end Label

namespace Cursor
set_option autoImplicit false

/-- No child that the grammar names is of one of the kinds. -/
def Unnamed (kinds : List String) (c : Cursor) : Prop :=
  ∀ child ∈ c.children, child.label.named = true → child.kind ∉ kinds

theorem namedChild?_eq_none_iff (c : Cursor) (kind : String) :
    c.namedChild? kind = none ↔ c.Unnamed [kind] := by
  rw [namedChild?, List.find?_eq_none]
  simp [Unnamed]

theorem nameAmong_of_unnamed {kinds : List String} {c : Cursor} (h : c.Unnamed kinds)
    (source : String) :
    c.nameAmong source kinds = Label.linesName (c.label.startRow + 1) (c.label.endRow + 1) := by
  induction kinds with
  | nil => rfl
  | cons kind kinds ih =>
    have hFirst : c.namedChild? kind = none := by
      rw [namedChild?_eq_none_iff]
      intro child hChild hNamed hKind
      exact h child hChild hNamed (List.mem_cons.mpr (.inl (List.mem_singleton.mp hKind)))
    rw [nameAmong, hFirst]
    refine ih fun child hChild hNamed hKind => ?_
    exact h child hChild hNamed (List.mem_cons_of_mem kind hKind)

theorem strip_functionName_of_unnamed {c : Cursor} (h : c.Unnamed Kind.functionNames)
    (source : String) :
    Qualifier.strip (c.functionName source) =
      (Label.linesName (c.label.startRow + 1) (c.label.endRow + 1), []) := by
  rw [functionName, nameAmong_of_unnamed h, Label.strip_linesName]

theorem not_mem_properties_of_unnamed {c : Cursor} (h : c.Unnamed Kind.functionNames)
    (source : String) {property : Property} (hEmbedded : property ∈ Property.embedded) :
    property ∉ (c.functionRecord source).properties := by
  have hApart : ∀ p ∈ Property.embedded, p ∉ [Property.template, .static, .virtual] := by decide
  rw [functionRecord_properties, strip_functionName_of_unnamed h, List.append_nil]
  exact fun hStructural => hApart property hEmbedded (mem_of_mem_structural hStructural)

end Cursor

/-- What nodes without a name give to the record of a function: it is named after its own lines, and
so are the class and the namespaces around it. -/
structure AnonymousNamed (source : String) (tree : Tree) (c : Cursor) (record : Record) : Prop where
  name : c.Unnamed ["function_declarator", "reference_declarator"] →
    record.name = Label.linesName record.start.toNat record.stop.toNat
  untagged : c.Unnamed ["function_declarator", "reference_declarator"] →
    ∀ property ∈ [Property.override, .volatile, .const], property ∉ record.properties
  className : ∀ a, Tree.IsNearest tree ["class_specifier", "struct_specifier"] c a →
    a.Unnamed ["type_identifier", "template_type"] →
      record.className = some (Label.linesName (a.label.startRow + 1) (a.label.endRow + 1))
  namespaces_iff : ∀ a, a ∈ c.ancestorsOfKind "namespace_definition" ↔
    a ∈ tree.nodes ∧ c ∈ a.below ∧ a.kind = "namespace_definition"
  scope : c.ancestorsOfKind "namespace_definition" ≠ [] → record.scope = some
    (String.intercalate "::" ((c.ancestorsOfKind "namespace_definition").map fun a =>
      a.nameAmong source ["namespace_identifier", "identifier"]))
  namespaceName : ∀ a ∈ c.ancestorsOfKind "namespace_definition",
    a.Unnamed ["namespace_identifier", "identifier"] →
      a.nameAmong source ["namespace_identifier", "identifier"] =
        Label.linesName (a.label.startRow + 1) (a.label.endRow + 1)

namespace Tree
set_option autoImplicit false

theorem anonymousNamed_functionRecord (source : String) {tree : Tree} {c : Cursor}
    (hNode : c ∈ tree.nodes) (hRows : c.label.startRow ≤ c.label.endRow) (hFit : c.label.RowsFit) :
    AnonymousNamed source tree c (c.functionRecord source) where
  name hUnnamed := by
    have hStart : (c.functionRecord source).start.toNat = c.label.startRow + 1 :=
      hFit.span_start false
    have hStop : (c.functionRecord source).stop.toNat = c.label.endRow + 1 :=
      hFit.span_function_stop hRows
    rw [hStart, hStop]
    exact congrArg Prod.fst (Cursor.strip_functionName_of_unnamed hUnnamed source)
  untagged hUnnamed property hEmbedded :=
    Cursor.not_mem_properties_of_unnamed hUnnamed source hEmbedded
  className a hNearest hUnnamed := by
    have hClass := (ancestorOfKinds?_eq_some_iff hNode _ a).mpr hNearest
    exact (congrArg (Option.map (Cursor.className source)) hClass).trans
      (congrArg some (Cursor.nameAmong_of_unnamed hUnnamed source))
  namespaces_iff a := by
    rw [Cursor.ancestorsOfKind, List.mem_filter, mem_ancestors_iff hNode, beq_iff_eq, and_assoc]
  scope hSome := by
    have hNames : c.enclosingNamespaces source ≠ [] := mt List.map_eq_nil_iff.mp hSome
    have hScope := Cursor.scope_eq source c
    rw [Surroundings.scope, Cursor.surroundings, if_neg hNames] at hScope
    exact hScope
  namespaceName a _ hUnnamed := Cursor.nameAmong_of_unnamed hUnnamed source

/-- Whatever has no name is named after its lines, and such a name tells the lines. -/
theorem anonymous_named (source : String) (tree : Tree)
    (hRows : ∀ c ∈ tree.nodes, c.label.startRow ≤ c.label.endRow ∧ c.label.RowsFit) :
    List.Forall₂ (fun c record => c.kind = "function_definition" →
      AnonymousNamed source tree c record) tree.definitionNodes (tree.records source) ∧
    ∀ a b : Label, a.anonymousName = b.anonymousName ↔
      a.startRow = b.startRow ∧ a.endRow = b.endRow := by
  refine ⟨forall₂_records ?_, Label.anonymousName_eq_iff⟩
  intro c hc hFunction
  have hNode := (mem_definitionNodes_iff.mp hc).1
  obtain ⟨hOrdered, hFit⟩ := hRows c hNode
  rw [Cursor.definition_eq_functionRecord hFunction]
  exact anonymousNamed_functionRecord source hNode hOrdered hFit

/-- A function without a declarator in a struct without a name, in a namespace without a name that
stands in a named one. -/
def unnamedNest : Tree :=
  .node ⟨"namespace_definition", true, 0, 50, 0, 7⟩
    [.node ⟨"namespace_identifier", true, 10, 11, 0, 0⟩ [],
    .node ⟨"namespace_definition", true, 14, 48, 1, 6⟩
      [.node ⟨"struct_specifier", true, 26, 46, 2, 5⟩
        [.node ⟨"function_definition", true, 34, 44, 3, 4⟩
          [.node ⟨"compound_statement", true, 40, 44, 3, 4⟩ []]]]]

theorem unnamedNest_named :
    (∀ c ∈ unnamedNest.nodes, c.label.startRow ≤ c.label.endRow ∧ c.label.RowsFit) ∧
      List.Forall₂ (fun c record => c.kind = "function_definition" →
        AnonymousNamed "namespace n {}" unnamedNest c record)
          unnamedNest.definitionNodes (unnamedNest.records "namespace n {}") ∧
      unnamedNest.records "namespace n {}" =
        [{ name := "anon-id-4-5", start := 4, stop := 5, className := some "anon-id-3-6",
           scope := some "anon-id-2-7::n", properties := [] }] := by
  have hRows : ∀ c ∈ unnamedNest.nodes, c.label.startRow ≤ c.label.endRow ∧ c.label.RowsFit := by
    decide
  exact ⟨hRows, (anonymous_named "namespace n {}" unnamedNest hRows).1, by decide +kernel⟩

end Tree
end FunctionIndex
