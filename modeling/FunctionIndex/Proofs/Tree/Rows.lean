import FunctionIndex.Proofs.Tree.Ancestors
import Mathlib.Data.List.Chain

/-! # Nested rows

Where the rows of children lie within those of their parent and follow one another, the rows of any
two nodes are nested or follow one another, just as their subtrees do.
-/
namespace FunctionIndex.Cursor
set_option autoImplicit false

/-- What a parser guarantees of the rows in a subtree. -/
structure RowsNested (c : Cursor) : Prop where
  ordered : ∀ d ∈ c.subtree, d.label.startRow ≤ d.label.endRow
  within : ∀ d ∈ c.subtree, ∀ child ∈ d.children,
    d.label.startRow ≤ child.label.startRow ∧ child.label.endRow ≤ d.label.endRow
  siblings : ∀ d ∈ c.subtree, d.children.IsChain fun a b => a.label.endRow ≤ b.label.startRow

theorem RowsNested.subtree {c d : Cursor} (h : c.RowsNested) (hd : d ∈ c.subtree) :
    d.RowsNested where
  ordered e he := h.ordered e (mem_subtree_trans hd he)
  within e he := h.within e (mem_subtree_trans hd he)
  siblings e he := h.siblings e (mem_subtree_trans hd he)

theorem RowsNested.child {c child : Cursor} (h : c.RowsNested) (hChild : child ∈ c.children) :
    child.RowsNested :=
  h.subtree (mem_subtree_of_mem_children hChild (self_mem_subtree child))

theorem RowsNested.rows_within {c d : Cursor} (h : c.RowsNested) (hd : d ∈ c.subtree) :
    c.label.startRow ≤ d.label.startRow ∧ d.label.endRow ≤ c.label.endRow := by
  induction c using children_induction with
  | step c ih =>
    rcases mem_subtree_iff.mp hd with rfl | hBelow
    · exact ⟨Nat.le_refl _, Nat.le_refl _⟩
    · obtain ⟨child, hChild, hd⟩ := mem_below_iff.mp hBelow
      have hOuter := h.within c (self_mem_subtree c) child hChild
      have hInner := ih child hChild (h.child hChild) hd
      omega

/-- A chain of siblings orders also those that do not stand side by side, since none of them ends
before it starts. -/
theorem pairwise_of_isChain {nodes : List Cursor}
    (hOrdered : ∀ a ∈ nodes, a.label.startRow ≤ a.label.endRow)
    (hChain : nodes.IsChain fun a b => a.label.endRow ≤ b.label.startRow) :
    nodes.Pairwise fun a b => a.label.endRow ≤ b.label.startRow := by
  induction nodes with
  | nil => exact List.Pairwise.nil
  | cons a nodes ih =>
    obtain ⟨-, hOrdered⟩ := List.forall_mem_cons.mp hOrdered
    have hRest := ih hOrdered hChain.tail
    refine List.pairwise_cons.mpr ⟨?_, hRest⟩
    intro c hc
    cases nodes with
    | nil => cases hc
    | cons b others =>
      have hFirst : a.label.endRow ≤ b.label.startRow := (List.isChain_cons_cons.mp hChain).1
      rcases List.mem_cons.mp hc with rfl | hc
      · exact hFirst
      · have hSecond := (List.pairwise_cons.mp hRest).1 c hc
        have hb := hOrdered b List.mem_cons_self
        omega

theorem RowsNested.children_pairwise {c : Cursor} (h : c.RowsNested) :
    c.children.Pairwise fun a b => a.label.endRow ≤ b.label.startRow := by
  refine pairwise_of_isChain ?_ (h.siblings c (self_mem_subtree c))
  intro child hChild
  exact (h.child hChild).ordered child (self_mem_subtree child)

/-- Of two nodes in document order the later one is below the earlier or starts after its rows. -/
theorem RowsNested.pairwise {c : Cursor} (h : c.RowsNested) :
    c.subtree.Pairwise fun a b => b ∈ a.below ∨ a.label.endRow ≤ b.label.startRow := by
  induction c using children_induction with
  | step c ih =>
    rw [subtree_eq_cons]
    refine List.pairwise_cons.mpr ⟨fun d hd => .inl hd, ?_⟩
    refine List.pairwise_flatMap.mpr ⟨fun child hChild => ih child hChild (h.child hChild), ?_⟩
    -- Two nodes below different children are apart because the children are.
    refine h.children_pairwise.imp_of_mem ?_
    intro first second hFirst hSecond hRows a ha b hb
    have hEnd := ((h.child hFirst).rows_within ha).2
    have hStart := ((h.child hSecond).rows_within hb).1
    exact .inr (hEnd.trans (hRows.trans hStart))

end FunctionIndex.Cursor
