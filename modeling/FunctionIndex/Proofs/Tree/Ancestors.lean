import FunctionIndex.Proofs.Tree.Subtree
import Mathlib.Data.List.Infix

/-! # Ancestors and subtrees

The ancestors of a node, read off its way from the root, are exactly the nodes whose subtrees hold
it. The positions of a subtree are consecutive numbers, so no node stands in it twice.
-/
namespace FunctionIndex

namespace Cursor
set_option autoImplicit false

theorem above_of_mem_childrenFrom {above : List Level} {position : Nat} {trees : List Tree}
    {child : Cursor} (h : child ∈ childrenFrom above position trees) : child.above = above := by
  induction trees generalizing position with
  | nil => cases h
  | cons tree later ih =>
    rcases List.mem_cons.mp h with rfl | h
    · rfl
    · exact ih h

theorem map_tree_childrenFrom (above : List Level) (position : Nat) (trees : List Tree) :
    (childrenFrom above position trees).map tree = trees := by
  induction trees generalizing position with
  | nil => rfl
  | cons tree later ih =>
    rw [childrenFrom, List.map_cons, ih]
    rfl

theorem map_tree_children (c : Cursor) : c.children.map tree = c.tree.children :=
  map_tree_childrenFrom _ _ _

theorem parent?_of_mem_children {c child : Cursor} (h : child ∈ c.children) :
    child.parent? = some c := by
  rw [parent?, above_of_mem_childrenFrom h]

theorem ancestors_of_mem_children {c child : Cursor} (h : child ∈ c.children) :
    child.ancestors = c :: c.ancestors := by
  rw [ancestors, above_of_mem_childrenFrom h]
  rfl

theorem size_le_forestSize {tree : Tree} {trees : List Tree} (h : tree ∈ trees) :
    tree.size ≤ Tree.forestSize trees := by
  induction trees with
  | nil => cases h
  | cons first later ih =>
    rw [Tree.forestSize]
    rcases List.mem_cons.mp h with rfl | h
    · exact Nat.le_add_right _ _
    · exact Nat.le_add_left_of_le (ih h)

theorem size_lt_of_mem_children {c child : Cursor} (h : child ∈ c.children) :
    child.tree.size < c.tree.size := by
  have hTree : child.tree ∈ c.tree.children :=
    map_tree_children c ▸ List.mem_map_of_mem h
  rw [Tree.size_eq c.tree]
  exact Nat.lt_succ_of_le (size_le_forestSize hTree)

theorem children_induction {motive : Cursor → Prop}
    (step : ∀ c, (∀ child ∈ c.children, motive child) → motive c) (c : Cursor) : motive c :=
  step c fun child _ => children_induction step child
termination_by c.tree.size
decreasing_by exact size_lt_of_mem_children ‹_›

theorem mem_below_iff {c d : Cursor} : d ∈ c.below ↔ ∃ child ∈ c.children, d ∈ child.subtree :=
  List.mem_flatMap

theorem mem_subtree_iff {c d : Cursor} : d ∈ c.subtree ↔ d = c ∨ d ∈ c.below := by
  rw [subtree_eq_cons, List.mem_cons]

theorem mem_subtree_of_mem_below {c d : Cursor} (h : d ∈ c.below) : d ∈ c.subtree :=
  mem_subtree_iff.mpr (.inr h)

theorem self_mem_subtree (c : Cursor) : c ∈ c.subtree := mem_subtree_iff.mpr (.inl rfl)

theorem mem_subtree_of_mem_children {c child d : Cursor} (hChild : child ∈ c.children)
    (h : d ∈ child.subtree) : d ∈ c.subtree :=
  mem_subtree_of_mem_below (mem_below_iff.mpr ⟨child, hChild, h⟩)

theorem mem_subtree_trans {a c d : Cursor} (hc : c ∈ a.subtree) (hd : d ∈ c.subtree) :
    d ∈ a.subtree := by
  induction a using children_induction with
  | step a ih =>
    rcases mem_subtree_iff.mp hc with rfl | hc
    · exact hd
    · obtain ⟨child, hChild, hc⟩ := mem_below_iff.mp hc
      exact mem_subtree_of_mem_children hChild (ih child hChild hc)

theorem eq_or_exists_parent {c d : Cursor} (h : d ∈ c.subtree) :
    d = c ∨ ∃ parent ∈ c.subtree, d ∈ parent.children := by
  induction c using children_induction with
  | step c ih =>
    rcases mem_subtree_iff.mp h with rfl | h
    · exact .inl rfl
    · obtain ⟨child, hChild, h⟩ := mem_below_iff.mp h
      rcases ih child hChild h with rfl | ⟨parent, hParent, hd⟩
      · exact .inr ⟨c, self_mem_subtree c, hChild⟩
      · exact .inr ⟨parent, mem_subtree_of_mem_children hChild hParent, hd⟩

/-- On the way from the root to a node stands every node whose subtree holds it. -/
theorem ancestors_suffix {c d : Cursor} (h : d ∈ c.subtree) :
    c :: c.ancestors <:+ d :: d.ancestors := by
  induction c using children_induction with
  | step c ih =>
    rcases mem_subtree_iff.mp h with rfl | h
    · exact List.suffix_refl _
    · obtain ⟨child, hChild, h⟩ := mem_below_iff.mp h
      have hSuffix := ih child hChild h
      rw [ancestors_of_mem_children hChild] at hSuffix
      exact (List.suffix_cons child _).trans hSuffix

/-- Every ancestor either stands above the whole subtree or is a node of it that holds `d`. -/
theorem mem_below_of_mem_ancestors {c d a : Cursor} (hd : d ∈ c.subtree) (ha : a ∈ d.ancestors) :
    a ∈ c.ancestors ∨ (a ∈ c.subtree ∧ d ∈ a.below) := by
  induction c using children_induction with
  | step c ih =>
    rcases mem_subtree_iff.mp hd with rfl | hBelow
    · exact .inl ha
    · obtain ⟨child, hChild, hd⟩ := mem_below_iff.mp hBelow
      rcases ih child hChild hd with ha | ⟨ha, hHolds⟩
      · rw [ancestors_of_mem_children hChild] at ha
        rcases List.mem_cons.mp ha with rfl | ha
        · exact .inr ⟨self_mem_subtree a, hBelow⟩
        · exact .inl ha
      · exact .inr ⟨mem_subtree_of_mem_children hChild ha, hHolds⟩

mutual

theorem map_position_subtreeFrom (above : List Level) (start : Nat) (later : List Tree)
    (tree : Tree) :
    (subtreeFrom above start later tree).map position = List.range' start tree.size := by
  cases tree with
  | node label children =>
    rw [subtreeFrom, List.map_cons, map_position_forestFrom, Tree.size, List.range'_succ]
    rfl
termination_by sizeOf tree

theorem map_position_forestFrom (above : List Level) (start : Nat) (trees : List Tree) :
    (forestFrom above start trees).map position = List.range' start (Tree.forestSize trees) := by
  cases trees with
  | nil => rfl
  | cons tree later =>
    rw [forestFrom, List.map_append, map_position_subtreeFrom, map_position_forestFrom,
      Tree.forestSize, List.range'_append_1]
termination_by sizeOf trees

end

theorem map_position_subtree (c : Cursor) :
    c.subtree.map position = List.range' c.position c.tree.size :=
  map_position_subtreeFrom _ _ _ _

theorem subtree_pairwise_lt (c : Cursor) :
    c.subtree.Pairwise fun a b => a.position < b.position := by
  have hRange := List.pairwise_lt_range' (s := c.position) (n := c.tree.size) 1
  rw [← map_position_subtree] at hRange
  exact List.pairwise_map.mp hRange

theorem position_lt_of_mem_below {c d : Cursor} (h : d ∈ c.below) : c.position < d.position := by
  have hPairwise := c.subtree_pairwise_lt
  rw [subtree_eq_cons] at hPairwise
  exact (List.pairwise_cons.mp hPairwise).1 d h

end Cursor

namespace Tree
set_option autoImplicit false

def nodes (tree : Tree) : List Cursor := (Cursor.root tree).subtree

theorem parent?_eq_some_iff {tree : Tree} {c : Cursor} (hNode : c ∈ tree.nodes) (parent : Cursor) :
    c.parent? = some parent ↔ parent ∈ tree.nodes ∧ c ∈ parent.children := by
  constructor
  · intro h
    rcases Cursor.eq_or_exists_parent hNode with rfl | ⟨other, hOther, hChild⟩
    · cases h
    · rw [Cursor.parent?_of_mem_children hChild] at h
      cases h
      exact ⟨hOther, hChild⟩
  · rintro ⟨-, hChild⟩
    exact Cursor.parent?_of_mem_children hChild

theorem mem_ancestors_iff {tree : Tree} {c : Cursor} (hNode : c ∈ tree.nodes) (a : Cursor) :
    a ∈ c.ancestors ↔ a ∈ tree.nodes ∧ c ∈ a.below := by
  constructor
  · intro ha
    rcases Cursor.mem_below_of_mem_ancestors hNode ha with ha | ha
    · cases ha
    · exact ha
  · rintro ⟨-, hBelow⟩
    have hLess := Cursor.position_lt_of_mem_below hBelow
    have hSuffix := Cursor.ancestors_suffix (Cursor.mem_subtree_of_mem_below hBelow)
    -- The suffix could end at `c` itself; its position rules that out.
    rcases List.mem_cons.mp (hSuffix.subset List.mem_cons_self) with rfl | ha
    · exact absurd hLess (Nat.lt_irrefl _)
    · exact ha

end Tree
end FunctionIndex
