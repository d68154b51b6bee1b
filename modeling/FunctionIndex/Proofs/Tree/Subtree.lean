import FunctionIndex.Tree.Search

/-! # Subtrees in document order

A subtree is listed by recursion on the tree: the node, then the subtrees of its children. The walk
of a cursor climbs back from every leaf; it gives the same list, whatever follows the subtree.
-/
namespace FunctionIndex.Cursor
set_option autoImplicit false

mutual

def subtreeFrom (above : List Level) (position : Nat) (later : List Tree) : Tree → List Cursor
  | .node label children =>
    ⟨⟨position, .node label children, later⟩, above⟩ ::
      forestFrom (⟨position, .node label children, later⟩ :: above) (position + 1) children

def forestFrom (above : List Level) (position : Nat) : List Tree → List Cursor
  | [] => []
  | tree :: later =>
    subtreeFrom above position later tree ++ forestFrom above (position + tree.size) later

end

def subtree (c : Cursor) : List Cursor := subtreeFrom c.above c.position c.here.later c.tree

/-- The nodes of the subtree without the node itself. -/
def below (c : Cursor) : List Cursor := c.children.flatMap subtree

theorem forestFrom_eq_flatMap (above : List Level) (position : Nat) (trees : List Tree) :
    forestFrom above position trees = (childrenFrom above position trees).flatMap subtree := by
  induction trees generalizing position with
  | nil => rw [forestFrom, childrenFrom, List.flatMap_nil]
  | cons tree later ih =>
    rw [forestFrom, childrenFrom, List.flatMap_cons, ih]
    rfl

theorem subtree_eq_cons (c : Cursor) : c.subtree = c :: c.below := by
  obtain ⟨⟨position, tree, later⟩, above⟩ := c
  cases tree with
  | node label children => exact congrArg _ (forestFrom_eq_flatMap _ _ _)

theorem walkFrom_eq_cons (start : Nat) (c : Cursor) :
    walkFrom start c = c :: (c.next? start).elim [] (walkFrom start) := by
  rw [walkFrom]
  split <;> rename_i h <;> rw [h] <;> rfl

theorem resume?_eq_none (here : Level) (above : List Level) :
    resume? here.position here above = none := by
  cases above <;> rw [resume?, if_pos rfl]

theorem resume?_last {start position : Nat} (h : start < position) (tree : Tree) (level : Level)
    (above : List Level) :
    resume? start ⟨position, tree, []⟩ (level :: above) = resume? start level above := by
  rw [resume?, if_neg (Nat.ne_of_gt h)]
  rfl

theorem resume?_sibling {start position : Nat} (h : start < position) (tree sibling : Tree)
    (later : List Tree) (level : Level) (above : List Level) :
    resume? start ⟨position, tree, sibling :: later⟩ (level :: above) =
      some ⟨⟨position + tree.size, sibling, later⟩, level :: above⟩ := by
  rw [resume?, if_neg (Nat.ne_of_gt h)]
  rfl

mutual

/-- A walk that has come to a node lists the subtree, then goes on where the node lets it. -/
theorem walkFrom_subtree (start position : Nat) (h : start ≤ position) (above : List Level)
    (later : List Tree) (tree : Tree) :
    walkFrom start ⟨⟨position, tree, later⟩, above⟩ = subtreeFrom above position later tree ++
      (resume? start ⟨position, tree, later⟩ above).elim [] (walkFrom start) := by
  cases tree with
  | node label children =>
    rw [walkFrom_eq_cons, subtreeFrom, List.cons_append]
    cases children with
    | nil => rfl
    | cons child others =>
      exact congrArg _ (walkFrom_forest start (position + 1) (Nat.lt_succ_of_le h)
        ⟨position, .node label (child :: others), later⟩ above child others)
termination_by sizeOf tree

theorem walkFrom_forest (start position : Nat) (h : start < position) (level : Level)
    (above : List Level) (tree : Tree) (later : List Tree) :
    walkFrom start ⟨⟨position, tree, later⟩, level :: above⟩ =
      forestFrom (level :: above) position (tree :: later) ++
        (resume? start level above).elim [] (walkFrom start) := by
  rw [walkFrom_subtree start position (Nat.le_of_lt h), forestFrom, List.append_assoc]
  cases later with
  | nil => rw [resume?_last h, forestFrom, List.nil_append]
  | cons sibling others =>
    rw [resume?_sibling h, Option.elim_some,
      walkFrom_forest start (position + tree.size) (Nat.lt_add_right _ h)]
termination_by sizeOf tree + sizeOf later + 1

end

theorem walk_eq_subtree (c : Cursor) : c.walk = c.subtree := by
  calc
    c.walk = c.subtree ++ (resume? c.position c.here c.above).elim [] (walkFrom c.position) :=
      walkFrom_subtree c.position c.position (Nat.le_refl _) c.above c.here.later c.tree
    _ = c.subtree := by rw [position, resume?_eq_none, Option.elim_none, List.append_nil]

theorem findKinds_eq (kinds : List String) (c : Cursor) :
    c.findKinds kinds = c.subtree.filter (hasKindIn kinds) := by
  rw [findKinds, walk_eq_subtree]

end FunctionIndex.Cursor
