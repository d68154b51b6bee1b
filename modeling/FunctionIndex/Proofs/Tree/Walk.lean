import FunctionIndex.Proofs.Tree.Ancestors

/-! # Searches inside a subtree

A walk makes one move for every node below its start and has then ended, whatever stands beside or
above the start. So a search finds the nodes of its kinds in that subtree and no others, in document
order, and what it finds from an inner node is one block of what it finds from the root.
-/
namespace FunctionIndex

namespace Cursor
set_option autoImplicit false

/-- Where a walk that began at position `start` stands some moves after `c`; nowhere once it has
ended. -/
def afterMoves? (start : Nat) (c : Cursor) : Nat → Option Cursor
  | 0 => some c
  | moves + 1 => (c.next? start).bind fun next => next.afterMoves? start moves

theorem getElem?_walkFrom (start : Nat) (c : Cursor) (moves : Nat) :
    (walkFrom start c)[moves]? = c.afterMoves? start moves := by
  induction moves generalizing c with
  | zero =>
    rw [walkFrom_eq_cons]
    rfl
  | succ moves ih =>
    rw [walkFrom_eq_cons, List.getElem?_cons_succ, afterMoves?]
    cases c.next? start with
    | none => rfl
    | some next => exact ih next

theorem afterMoves?_eq (c : Cursor) (moves : Nat) :
    c.afterMoves? c.position moves = c.subtree[moves]? := by
  rw [← getElem?_walkFrom, ← walk_eq_subtree, walk]

theorem length_subtree (c : Cursor) : c.subtree.length = c.tree.size := by
  rw [← List.length_map position, map_position_subtree, List.length_range']

theorem isSome_afterMoves? (c : Cursor) (moves : Nat) :
    (c.afterMoves? c.position moves).isSome = true ↔ moves < c.tree.size := by
  rw [afterMoves?_eq, ← length_subtree, isSome_getElem?]

theorem hasKindIn_iff (kinds : List String) (c : Cursor) :
    c.hasKindIn kinds = true ↔ c.kind ∈ kinds :=
  List.contains_iff_mem

theorem findKinds_eq_append (kinds : List String) (c : Cursor) :
    c.findKinds kinds =
      (if c.kind ∈ kinds then [c] else []) ++ c.children.flatMap (findKinds kinds) := by
  have hBelow : c.below.filter (hasKindIn kinds) = c.children.flatMap (findKinds kinds) := by
    rw [below, List.filter_flatMap]
    apply List.flatMap_congr
    intro child _
    exact (findKinds_eq kinds child).symm
  rw [findKinds_eq, subtree_eq_cons, List.filter_cons, hBelow]
  simp only [hasKindIn_iff]
  split
  · rfl
  · rfl

theorem subtree_isInfix {c d : Cursor} (h : d ∈ c.subtree) : d.subtree <:+: c.subtree := by
  induction c using children_induction with
  | step c ih =>
    rcases mem_subtree_iff.mp h with rfl | h
    · exact List.infix_refl _
    · obtain ⟨child, hChild, h⟩ := mem_below_iff.mp h
      have hBlock : child.subtree <:+: c.below := by
        rw [below, List.flatMap_def]
        exact List.infix_of_mem_flatten (List.mem_map_of_mem hChild)
      rw [subtree_eq_cons c]
      exact ((ih child hChild h).trans hBlock).trans (List.suffix_cons c c.below).isInfix

end Cursor

namespace Tree
set_option autoImplicit false

theorem mem_subtree_iff_ancestor {tree : Tree} {c : Cursor} (hNode : c ∈ tree.nodes) (d : Cursor) :
    d ∈ c.subtree ↔ d ∈ tree.nodes ∧ (d = c ∨ c ∈ d.ancestors) := by
  constructor
  · intro hd
    have hIn : d ∈ tree.nodes := Cursor.mem_subtree_trans hNode hd
    rcases Cursor.mem_subtree_iff.mp hd with rfl | hBelow
    · exact ⟨hIn, .inl rfl⟩
    · exact ⟨hIn, .inr ((mem_ancestors_iff hIn c).mpr ⟨hNode, hBelow⟩)⟩
  · rintro ⟨hIn, rfl | hAncestor⟩
    · exact Cursor.self_mem_subtree d
    · exact Cursor.mem_subtree_of_mem_below ((mem_ancestors_iff hIn c).mp hAncestor).2

/-- What a search of some kinds from a node of a tree does and finds. -/
structure SearchedBelow (tree : Tree) (c : Cursor) (kinds : List String) : Prop where
  moves : ∀ moves, c.afterMoves? c.position moves = c.subtree[moves]?
  ends : ∀ moves, (c.afterMoves? c.position moves).isSome = true ↔ moves < c.tree.size
  found : c.findKinds kinds = c.subtree.filter fun d => decide (d.kind ∈ kinds)
  found_children : c.findKinds kinds =
    (if c.kind ∈ kinds then [c] else []) ++ c.children.flatMap (Cursor.findKinds kinds)
  mem_iff : ∀ d, d ∈ c.findKinds kinds ↔
    d ∈ tree.nodes ∧ (d = c ∨ c ∈ d.ancestors) ∧ d.kind ∈ kinds
  ordered : (c.findKinds kinds).Pairwise fun a b => a.position < b.position
  block : c.findKinds kinds <:+: (Cursor.root tree).findKinds kinds

theorem searched_below (tree : Tree) (c : Cursor) (kinds : List String) (hNode : c ∈ tree.nodes) :
    SearchedBelow tree c kinds where
  moves := c.afterMoves?_eq
  ends := c.isSome_afterMoves?
  found := by
    rw [Cursor.findKinds_eq]
    apply List.filter_congr
    intro d _
    rw [Bool.eq_iff_iff, Cursor.hasKindIn_iff, decide_eq_true_iff]
  found_children := Cursor.findKinds_eq_append kinds c
  mem_iff d := by
    rw [Cursor.findKinds_eq, List.mem_filter, mem_subtree_iff_ancestor hNode, Cursor.hasKindIn_iff,
      and_assoc]
  ordered := by
    rw [Cursor.findKinds_eq]
    exact c.subtree_pairwise_lt.filter _
  block := by
    rw [Cursor.findKinds_eq, Cursor.findKinds_eq]
    exact (Cursor.subtree_isInfix hNode).filter _

/-- A struct that holds a function, and another function after it. -/
def functionAfterStruct : Tree :=
  .node ⟨"translation_unit", true, 0, 38, 0, 4⟩
    [.node ⟨"struct_specifier", true, 0, 25, 0, 2⟩
      [.node ⟨"function_definition", true, 13, 23, 1, 1⟩ []],
    .node ⟨"function_definition", true, 27, 37, 3, 3⟩ []]

theorem struct_searched_below :
    ∃ c ∈ functionAfterStruct.nodes, c.kind = "struct_specifier" ∧ c.nextSibling?.isSome = true ∧
      SearchedBelow functionAfterStruct c ["function_definition"] ∧
      (c.findKinds ["function_definition"]).map Cursor.position = [2] := by
  let start : Cursor :=
    ⟨⟨1, functionAfterStruct.children[0], functionAfterStruct.children.drop 1⟩,
      [(Cursor.root functionAfterStruct).here]⟩
  have hNode : start ∈ functionAfterStruct.nodes := List.mem_of_getElem? (i := 1) rfl
  have hSearched := searched_below functionAfterStruct start ["function_definition"] hNode
  refine ⟨start, hNode, rfl, rfl, hSearched, ?_⟩
  rw [hSearched.found]
  decide

end Tree
end FunctionIndex
