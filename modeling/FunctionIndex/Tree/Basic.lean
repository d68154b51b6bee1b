/-! # Parsed source trees

A tree covers a source text. Every node has a kind, tells whether the grammar names it (keywords and
punctuation are unnamed), and knows the bytes and the rows that it covers. Rows count from zero.
-/
namespace FunctionIndex
set_option autoImplicit false

structure Label where
  kind : String
  named : Bool
  startByte : Nat
  endByte : Nat
  startRow : Nat
  endRow : Nat
  deriving DecidableEq, Repr, Inhabited

inductive Tree where
  | node (label : Label) (children : List Tree)
  deriving Inhabited

namespace Tree

def label : Tree → Label
  | .node label _ => label

def children : Tree → List Tree
  | .node _ children => children

def kind (tree : Tree) : String := tree.label.kind

mutual

def size : Tree → Nat
  | .node _ children => forestSize children + 1

def forestSize : List Tree → Nat
  | [] => 0
  | tree :: trees => size tree + forestSize trees

end

theorem size_eq (tree : Tree) : tree.size = forestSize tree.children + 1 := by
  cases tree
  rw [size, children]

end Tree
end FunctionIndex
