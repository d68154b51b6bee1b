import FunctionIndex.Tree.Basic

/-! # Cursors

A cursor stands on a node of a tree and remembers the way from the root, so it can go down, sideways
and up. The position of a node is its index in document order.

`walk` visits the subtree of its starting node in document order: down where possible, else to the
next sibling of the nearest node that has one, never beyond the starting node.
-/
namespace FunctionIndex
set_option autoImplicit false

/-- A node on the way from the root to a cursor, with the siblings that follow it. -/
structure Level where
  position : Nat
  tree : Tree
  later : List Tree
  deriving Inhabited

structure Cursor where
  here : Level
  /-- The levels of the ancestors, nearest first. -/
  above : List Level
  deriving Inhabited

namespace Cursor

def root (tree : Tree) : Cursor := ⟨⟨0, tree, []⟩, []⟩

def position (c : Cursor) : Nat := c.here.position

def tree (c : Cursor) : Tree := c.here.tree

def label (c : Cursor) : Label := c.tree.label

def kind (c : Cursor) : String := c.label.kind

def firstChild? (c : Cursor) : Option Cursor :=
  match c.tree.children with
  | [] => none
  | child :: later => some ⟨⟨c.position + 1, child, later⟩, c.here :: c.above⟩

def nextSibling? (c : Cursor) : Option Cursor :=
  match c.here.later with
  | [] => none
  | sibling :: later => some ⟨⟨c.position + c.tree.size, sibling, later⟩, c.above⟩

def parent? (c : Cursor) : Option Cursor :=
  match c.above with
  | [] => none
  | level :: above => some ⟨level, above⟩

/-- Where a walk that began at position `start` goes after the subtree of `here` is done. -/
def resume? (start : Nat) (here : Level) : List Level → Option Cursor
  | [] => if here.position = start then none else nextSibling? ⟨here, []⟩
  | level :: above =>
    if here.position = start then none
    else match nextSibling? ⟨here, level :: above⟩ with
      | some next => some next
      | none => resume? start level above

def next? (start : Nat) (c : Cursor) : Option Cursor :=
  match c.firstChild? with
  | some child => some child
  | none => resume? start c.here c.above

/-- The number of nodes after the subtree of `here`, seen from the root. -/
def pending (here : Level) : List Level → Nat
  | [] => Tree.forestSize here.later
  | level :: above => Tree.forestSize here.later + pending level above

def remaining (c : Cursor) : Nat := c.tree.size + pending c.here c.above

theorem remaining_firstChild {c child : Cursor} (h : c.firstChild? = some child) :
    child.remaining + 1 = c.remaining := by
  rw [firstChild?] at h
  split at h
  · cases h
  · rename_i first later hChildren
    cases h
    have hSize := Tree.size_eq c.tree
    rw [hChildren, Tree.forestSize] at hSize
    simp only [remaining, pending, tree] at hSize ⊢
    omega

theorem remaining_nextSibling {c sibling : Cursor} (h : c.nextSibling? = some sibling) :
    sibling.remaining = pending c.here c.above := by
  rw [nextSibling?] at h
  split at h
  · cases h
  · rename_i first later hLater
    cases h
    cases hAbove : c.above with
    | nil => simp only [remaining, pending, tree, hLater, Tree.forestSize]
    | cons level above =>
      simp only [remaining, pending, tree, hLater, Tree.forestSize]
      omega

theorem remaining_resume {start : Nat} {here : Level} {above : List Level} {next : Cursor}
    (h : resume? start here above = some next) : next.remaining ≤ pending here above := by
  induction above generalizing here with
  | nil =>
    rw [resume?] at h
    split at h
    · cases h
    · exact Nat.le_of_eq (remaining_nextSibling h)
  | cons level above ih =>
    rw [resume?] at h
    split at h
    · cases h
    · split at h
      · rename_i sibling hSibling
        cases h
        exact Nat.le_of_eq (remaining_nextSibling hSibling)
      · exact Nat.le_trans (ih h) (Nat.le_add_left _ _)

theorem remaining_next {start : Nat} {c next : Cursor} (h : c.next? start = some next) :
    next.remaining < c.remaining := by
  rw [next?] at h
  split at h
  · rename_i child hChild
    cases h
    have hLess := remaining_firstChild hChild
    omega
  · have hLess := remaining_resume h
    have hSize := Tree.size_eq c.tree
    have hRemaining : c.remaining = c.tree.size + pending c.here c.above := rfl
    omega

def walkFrom (start : Nat) (c : Cursor) : List Cursor :=
  match _h : c.next? start with
  | some next => c :: walkFrom start next
  | none => [c]
termination_by c.remaining
decreasing_by exact remaining_next _h

def walk (c : Cursor) : List Cursor := walkFrom c.position c

def childrenFrom (above : List Level) (position : Nat) : List Tree → List Cursor
  | [] => []
  | tree :: later =>
    ⟨⟨position, tree, later⟩, above⟩ :: childrenFrom above (position + tree.size) later

def children (c : Cursor) : List Cursor :=
  childrenFrom (c.here :: c.above) (c.position + 1) c.tree.children

def ancestorsFrom : List Level → List Cursor
  | [] => []
  | level :: above => ⟨level, above⟩ :: ancestorsFrom above

def ancestors (c : Cursor) : List Cursor := ancestorsFrom c.above

end Cursor

def Tree.at? (tree : Tree) (position : Nat) : Option Cursor := (Cursor.root tree).walk[position]?

end FunctionIndex
