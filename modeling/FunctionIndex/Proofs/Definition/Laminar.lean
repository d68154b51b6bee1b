import FunctionIndex.Proofs.Definition.Span
import FunctionIndex.Proofs.Tree.Rows

/-! # Spans of nested definitions

On a tree with nested rows that fit in a word, the spans of a tree's records are nested like their
nodes, and the spans of nodes that do not hold one another share at most one line.
-/
namespace FunctionIndex

namespace Label
set_option autoImplicit false

/-- No step of the computation of a span leaves the range of a word. -/
structure Unwrapped (label : Label) : Prop where
  startRow_toNat : label.startRow.toUInt32.toNat = label.startRow
  startLine_toNat : (label.startRow.toUInt32 + 1).toNat = label.startRow + 1
  endRow_toNat : label.endRow.toUInt32.toNat = label.endRow
  endLine_toNat : (label.endRow.toUInt32 + 1).toNat = label.endRow + 1
  one_le_endLine : 1 ≤ label.endRow.toUInt32 + 1
  macroLine_toNat : (label.endRow.toUInt32 + 1 - 1).toNat = label.endRow

def RowsFit (label : Label) : Prop :=
  label.startRow < UInt32.size - 1 ∧ label.endRow < UInt32.size - 1

instance (label : Label) : Decidable label.RowsFit := inferInstanceAs (Decidable (_ ∧ _))

theorem row_toNat {row : Nat} (h : row < UInt32.size - 1) :
    row.toUInt32.toNat = row ∧ (row.toUInt32 + 1).toNat = row + 1 := by
  have hSize := Span.word_size
  constructor
  · exact Nat.mod_eq_of_lt (by omega)
  · rw [Span.toNat_line]
    exact Nat.mod_eq_of_lt (by omega)

theorem RowsFit.unwrapped {label : Label} (h : label.RowsFit) : label.Unwrapped := by
  obtain ⟨hStart, hStartLine⟩ := row_toNat h.1
  obtain ⟨hEnd, hEndLine⟩ := row_toNat h.2
  refine ⟨hStart, hStartLine, hEnd, hEndLine, ?_, ?_⟩
  · rw [UInt32.le_iff_toNat_le, hEndLine]
    exact Nat.le_add_left 1 label.endRow
  · rw [UInt32.add_sub_cancel, hEnd]

theorem RowsFit.span_start {label : Label} (h : label.RowsFit) (ofMacro : Bool) :
    (label.span ofMacro).start.toNat = label.startRow + 1 :=
  (row_toNat h.1).2

theorem RowsFit.span_function_stop {label : Label} (h : label.RowsFit)
    (hRows : label.startRow ≤ label.endRow) : (label.span false).stop.toNat = label.endRow + 1 := by
  have hSize := Span.word_size
  obtain ⟨hStart, hEnd⟩ := h
  rw [span_function_stop_toNat, Nat.mod_eq_of_lt (by omega), Nat.mod_eq_of_lt (by omega)]
  omega

theorem RowsFit.span_macro_stop {label : Label} (h : label.RowsFit) :
    (label.span true).stop.toNat = max label.endRow (label.startRow + 1) := by
  have hSize := Span.word_size
  obtain ⟨hStart, hEnd⟩ := h
  rw [span_macro_stop_toNat, Nat.mod_eq_of_lt (by omega), Nat.mod_eq_of_lt (by omega)]

end Label

namespace Cursor
set_option autoImplicit false

theorem definition_start (source : String) (c : Cursor) (h : c.label.RowsFit) :
    (c.definition source).record.start.toNat = c.label.startRow + 1 := by
  rw [definition]
  split
  · exact h.span_start true
  · exact h.span_start false

theorem function_stop (source : String) {c : Cursor} (hKind : c.kind = Kind.functionDefinition)
    (h : c.label.RowsFit) (hRows : c.label.startRow ≤ c.label.endRow) :
    (c.definition source).record.stop.toNat = c.label.endRow + 1 := by
  rw [definition_eq_functionRecord hKind]
  exact h.span_function_stop hRows

theorem macro_stop (source : String) {c : Cursor} (hKind : c.kind = Kind.macroDefinition)
    (h : c.label.RowsFit) :
    (c.definition source).record.stop.toNat = max c.label.endRow (c.label.startRow + 1) := by
  rw [definition_eq_macroRecord hKind]
  exact h.span_macro_stop

theorem definition_stop_bounds (source : String) {c : Cursor}
    (hKind : c.kind = Kind.functionDefinition ∨ c.kind = Kind.macroDefinition)
    (h : c.label.RowsFit) (hRows : c.label.startRow ≤ c.label.endRow) :
    c.label.startRow + 1 ≤ (c.definition source).record.stop.toNat ∧
      (c.definition source).record.stop.toNat ≤ c.label.endRow + 1 := by
  rcases hKind with hFunction | hMacro
  · rw [function_stop source hFunction h hRows]
    omega
  · rw [macro_stop source hMacro h]
    omega

end Cursor

structure Laminar (a : Cursor) (earlier : Record) (b : Cursor) (later : Record) : Prop where
  nested : a.kind = Kind.functionDefinition → a ∈ b.ancestors →
    earlier.start ≤ later.start ∧ later.stop ≤ earlier.stop
  apart : a ∉ b.ancestors → earlier.stop ≤ later.start
  macro_apart : a ∉ b.ancestors → a.kind = Kind.macroDefinition →
    a.label.startRow < a.label.endRow → earlier.stop < later.start

namespace Tree
set_option autoImplicit false

/-- The rows that a parser gives to the nodes of a source of less than 2 ^ 32 lines. -/
structure RowsPlaced (tree : Tree) : Prop where
  nested : (Cursor.root tree).RowsNested
  fit : ∀ c ∈ tree.nodes, c.label.RowsFit

theorem zip_records (source : String) (tree : Tree) :
    tree.definitionNodes.zip (tree.records source) =
      tree.definitionNodes.map fun c => (c, (c.definition source).record) := by
  rw [records_eq_map, List.map_prod_left_eq_zip]

theorem definitionNodes_pairwise {tree : Tree} (h : tree.RowsPlaced)
    {related : Cursor → Cursor → Prop}
    (hRelated : ∀ a ∈ tree.definitionNodes, ∀ b ∈ tree.definitionNodes,
      (b ∈ a.below ∨ a.label.endRow ≤ b.label.startRow) → related a b) :
    tree.definitionNodes.Pairwise related := by
  have hPairwise : tree.definitionNodes.Pairwise fun a b =>
      b ∈ a.below ∨ a.label.endRow ≤ b.label.startRow := h.nested.pairwise.filter _
  exact hPairwise.imp_of_mem fun ha hb => hRelated _ ha _ hb

theorem RowsPlaced.start_le {tree : Tree} (h : tree.RowsPlaced) (source : String) {a b : Cursor}
    (ha : a ∈ tree.definitionNodes) (hb : b ∈ tree.definitionNodes)
    (hRows : b ∈ a.below ∨ a.label.endRow ≤ b.label.startRow) :
    (a.definition source).record.start ≤ (b.definition source).record.start := by
  have haNode := (mem_definitionNodes_iff.mp ha).1
  have hbNode := (mem_definitionNodes_iff.mp hb).1
  rw [UInt32.le_iff_toNat_le, Cursor.definition_start source a (h.fit a haNode),
    Cursor.definition_start source b (h.fit b hbNode)]
  rcases hRows with hBelow | hRows
  · have hWithin := (h.nested.subtree haNode).rows_within (Cursor.mem_subtree_of_mem_below hBelow)
    omega
  · have hOrdered := h.nested.ordered a haNode
    omega

theorem RowsPlaced.laminar {tree : Tree} (h : tree.RowsPlaced) (source : String) {a b : Cursor}
    (ha : a ∈ tree.definitionNodes) (hb : b ∈ tree.definitionNodes)
    (hRows : b ∈ a.below ∨ a.label.endRow ≤ b.label.startRow) :
    Laminar a (a.definition source).record b (b.definition source).record := by
  obtain ⟨haNode, haKind⟩ := mem_definitionNodes_iff.mp ha
  obtain ⟨hbNode, hbKind⟩ := mem_definitionNodes_iff.mp hb
  have haOrdered := h.nested.ordered a haNode
  have hbOrdered := h.nested.ordered b hbNode
  have hStart := Cursor.definition_start source b (h.fit b hbNode)
  have hApart : a ∉ b.ancestors → a.label.endRow ≤ b.label.startRow := by
    intro hNot
    refine hRows.resolve_left fun hBelow => hNot ?_
    exact (mem_ancestors_iff hbNode a).mpr ⟨haNode, hBelow⟩
  refine ⟨?_, ?_, ?_⟩
  · intro hFunction hAncestor
    have hBelow := ((mem_ancestors_iff hbNode a).mp hAncestor).2
    have hWithin := (h.nested.subtree haNode).rows_within (Cursor.mem_subtree_of_mem_below hBelow)
    have hStop := (Cursor.definition_stop_bounds source hbKind (h.fit b hbNode) hbOrdered).2
    refine ⟨h.start_le source ha hb hRows, ?_⟩
    rw [UInt32.le_iff_toNat_le, Cursor.function_stop source hFunction (h.fit a haNode) haOrdered]
    omega
  · intro hNot
    have hStop := (Cursor.definition_stop_bounds source haKind (h.fit a haNode) haOrdered).2
    have hLess := hApart hNot
    rw [UInt32.le_iff_toNat_le, hStart]
    omega
  · intro hNot hMacro hSeveral
    have hLess := hApart hNot
    rw [UInt32.lt_iff_toNat_lt, hStart, Cursor.macro_stop source hMacro (h.fit a haNode)]
    omega

theorem spans_laminar (source : String) (tree : Tree) (h : tree.RowsPlaced) :
    (∀ c ∈ tree.nodes, c.label.Unwrapped) ∧
      (∀ record ∈ tree.records source, 1 ≤ record.start ∧ record.start ≤ record.stop) ∧
      (tree.records source).Pairwise (fun earlier later => earlier.start ≤ later.start) ∧
      (tree.definitionNodes.zip (tree.records source)).Pairwise fun earlier later =>
        Laminar earlier.1 earlier.2 later.1 later.2 := by
  refine ⟨fun c hc => (h.fit c hc).unwrapped, ?_, ?_, ?_⟩
  · intro record hRecord
    rw [records_eq_map] at hRecord
    obtain ⟨c, hc, rfl⟩ := List.mem_map.mp hRecord
    obtain ⟨hNode, hKind⟩ := mem_definitionNodes_iff.mp hc
    have hStart := Cursor.definition_start source c (h.fit c hNode)
    have hStop := Cursor.definition_stop_bounds source hKind (h.fit c hNode)
      (h.nested.ordered c hNode)
    rw [UInt32.le_iff_toNat_le, UInt32.le_iff_toNat_le, hStart]
    exact ⟨Nat.le_add_left 1 _, hStop.1⟩
  · rw [records_eq_map, List.pairwise_map]
    exact definitionNodes_pairwise h fun a ha b hb hRows => h.start_le source ha hb hRows
  · rw [zip_records, List.pairwise_map]
    exact definitionNodes_pairwise h fun a ha b hb hRows => h.laminar source ha hb hRows

/-- A function over eight lines that holds a struct with a method and a macro over two lines. -/
def functionWithMacro : Tree :=
  .node ⟨"translation_unit", true, 0, 70, 0, 8⟩
    [.node ⟨"function_definition", true, 0, 69, 0, 7⟩
      [.node ⟨"compound_statement", true, 9, 69, 0, 7⟩
        [.node ⟨"struct_specifier", true, 13, 47, 1, 4⟩
          [.node ⟨"function_definition", true, 28, 43, 2, 3⟩ []],
        .node ⟨"preproc_function_def", true, 49, 68, 5, 7⟩ []]]]

theorem functionWithMacro_laminar :
    functionWithMacro.RowsPlaced ∧
      (functionWithMacro.definitionNodes.zip (functionWithMacro.records "")).Pairwise
        fun earlier later => Laminar earlier.1 earlier.2 later.1 later.2 := by
  have hPlaced : functionWithMacro.RowsPlaced := by
    refine ⟨⟨?_, ?_, ?_⟩, ?_⟩
    · decide
    · decide
    · decide
    · decide
  exact ⟨hPlaced, (spans_laminar "" functionWithMacro hPlaced).2.2.2⟩

end Tree
end FunctionIndex
