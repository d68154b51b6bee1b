import FunctionIndex.Definition.Extract
import FunctionIndex.Proofs.Tree.Ancestors
import Mathlib.Data.List.Forall2

/-! # Definition nodes

The records of a tree are made one by one from its definition nodes, which are listed here by
recursion on the tree. A node is named by the tree below it alone, wherever the tree hangs.
-/
namespace FunctionIndex

namespace Tree
set_option autoImplicit false

def text (source : String) (tree : Tree) : String :=
  Text.Utf8.slice source tree.label.startByte tree.label.endByte

def nameAmong (source : String) (tree : Tree) : List String → String
  | [] => tree.label.anonymousName
  | kind :: kinds =>
    match tree.children.find? fun child => child.label.named && child.kind == kind with
    | some child => Text.normalize (child.text source)
    | none => nameAmong source tree kinds

end Tree

namespace Cursor
set_option autoImplicit false

theorem map_tree_namedChild? (kind : String) (c : Cursor) :
    (c.namedChild? kind).map tree =
      c.tree.children.find? fun child => child.label.named && child.kind == kind := by
  rw [← map_tree_children, List.find?_map]
  rfl

theorem nameAmong_eq_tree (source : String) (c : Cursor) (kinds : List String) :
    c.nameAmong source kinds = c.tree.nameAmong source kinds := by
  induction kinds with
  | nil => rfl
  | cons kind kinds ih =>
    rw [nameAmong, Tree.nameAmong, ← map_tree_namedChild?]
    cases c.namedChild? kind with
    | none => exact ih
    | some child => rfl

theorem hasKindIn_definitions_iff (c : Cursor) :
    c.hasKindIn Kind.definitions = true ↔
      c.kind = Kind.functionDefinition ∨ c.kind = Kind.macroDefinition := by
  simp [hasKindIn, Kind.definitions]

theorem macroDefinition_ne_functionDefinition :
    Kind.macroDefinition ≠ Kind.functionDefinition := by decide

theorem definition_eq_macroRecord {c : Cursor} (h : c.kind = Kind.macroDefinition) (source : String) :
    (c.definition source).record = c.macroRecord source := by
  rw [definition, if_pos h]

theorem definition_eq_functionRecord {c : Cursor} (h : c.kind = Kind.functionDefinition)
    (source : String) : (c.definition source).record = c.functionRecord source := by
  rw [definition, if_neg (h ▸ macroDefinition_ne_functionDefinition.symm)]

end Cursor

namespace Tree

def definitionNodes (tree : Tree) : List Cursor :=
  tree.nodes.filter (Cursor.hasKindIn Kind.definitions)

theorem mem_definitionNodes_iff {tree : Tree} {c : Cursor} :
    c ∈ tree.definitionNodes ↔
      c ∈ tree.nodes ∧ (c.kind = Kind.functionDefinition ∨ c.kind = Kind.macroDefinition) := by
  rw [definitionNodes, List.mem_filter, Cursor.hasKindIn_definitions_iff]

theorem records_eq_map (source : String) (tree : Tree) :
    tree.records source = tree.definitionNodes.map fun c => (c.definition source).record := by
  rw [records, definitions, Cursor.findKinds_eq, List.map_map]
  rfl

theorem forall₂_records {source : String} {tree : Tree} {related : Cursor → Record → Prop}
    (h : ∀ c ∈ tree.definitionNodes, related c (c.definition source).record) :
    List.Forall₂ related tree.definitionNodes (tree.records source) := by
  rw [records_eq_map, List.forall₂_map_right_iff]
  exact List.forall₂_same.mpr h

end Tree
end FunctionIndex
