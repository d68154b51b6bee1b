import FunctionIndex.Tree.Basic

/-! # Listed trees

A tree can be given as the list of its nodes in document order, each node with the index of its
parent. The list is read from its end, so that the subtrees of a node's children are complete, and
stand in front, when the node itself is reached.
-/
namespace FunctionIndex
set_option autoImplicit false

structure Row where
  /-- The index of the parent in the listing; the root has none. -/
  parent : Option Nat
  label : Label

namespace Tree

/-- Takes the complete trees in front whose parent is `index` as children of that node. -/
def attach (index : Nat) (row : Row) (complete : List (Option Nat × Tree)) :
    List (Option Nat × Tree) :=
  let children := complete.takeWhile (·.1 == some index)
  (row.parent, .node row.label (children.map (·.2))) ::
    complete.dropWhile (·.1 == some index)

def ofRowsFrom (index : Nat) : List Row → List (Option Nat × Tree)
  | [] => []
  | row :: rows => attach index row (ofRowsFrom (index + 1) rows)

def ofRows? (rows : List Row) : Option Tree :=
  match ofRowsFrom 0 rows with
  | [(none, tree)] => some tree
  | _ => none

end Tree
end FunctionIndex
