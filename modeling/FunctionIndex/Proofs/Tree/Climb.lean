import FunctionIndex.Proofs.Tree.Ancestors

/-! # Climbs

A climb goes from a node to its parent, again and again, until it stands on the root. It meets
exactly the nodes whose searches find the node it started from. These are the nodes whose positions
reach over its own, and it meets them from the last position to the first. So the nearest ancestor
of some kinds is the one that stands last in document order.
-/
namespace FunctionIndex

namespace Cursor
set_option autoImplicit false

/-- Where a climb stands some moves above `c`; nowhere once it has left the root. -/
def climb? (c : Cursor) : Nat → Option Cursor
  | 0 => some c
  | moves + 1 => c.parent?.bind fun parent => parent.climb? moves

theorem climb?_succ (c : Cursor) (moves : Nat) : c.climb? (moves + 1) = c.ancestors[moves]? := by
  induction moves generalizing c with
  | zero =>
    obtain ⟨here, above⟩ := c
    cases above with
    | nil => rfl
    | cons level above => rfl
  | succ moves ih =>
    obtain ⟨here, above⟩ := c
    cases above with
    | nil => rfl
    | cons level above => exact ih ⟨level, above⟩

/-- What holds of a node and passes from parents to children holds in the subtree. -/
theorem subtree_induction {motive : Cursor → Prop} {c : Cursor} (hStart : motive c)
    (step : ∀ parent ∈ c.subtree, motive parent → ∀ child ∈ parent.children, motive child) :
    ∀ d ∈ c.subtree, motive d := by
  induction c using children_induction with
  | step c ih =>
    intro d hd
    rcases mem_subtree_iff.mp hd with rfl | hBelow
    · exact hStart
    · obtain ⟨child, hChild, hd⟩ := mem_below_iff.mp hBelow
      have hChildStart := step c (self_mem_subtree c) hStart child hChild
      refine ih child hChild hChildStart ?_ d hd
      intro parent hParent
      exact step parent (mem_subtree_of_mem_children hChild hParent)

theorem mem_below_of_mem_children {c child : Cursor} (h : child ∈ c.children) : child ∈ c.below :=
  mem_below_iff.mpr ⟨child, h, self_mem_subtree child⟩

theorem mem_findKinds_self_iff (c d : Cursor) : d ∈ c.findKinds [d.kind] ↔ d ∈ c.subtree := by
  rw [findKinds_eq, List.mem_filter]
  simp [hasKindIn]

/-- In a list of falling ranks the first item with a property has the greatest rank among them. -/
theorem find?_eq_some_iff_greatest {items : List Cursor} {p : Cursor → Bool}
    (h : items.Pairwise fun a b => b.position < a.position) (a : Cursor) :
    items.find? p = some a ↔
      a ∈ items ∧ p a = true ∧ ∀ b ∈ items, p b = true → b.position ≤ a.position := by
  induction items with
  | nil => simp
  | cons first items ih =>
    obtain ⟨hFirst, hRest⟩ := List.pairwise_cons.mp h
    by_cases hp : p first = true
    · rw [List.find?_cons_of_pos hp, Option.some.injEq]
      constructor
      · rintro rfl
        refine ⟨List.mem_cons_self, hp, ?_⟩
        intro b hb _
        rcases List.mem_cons.mp hb with rfl | hb
        · exact Nat.le_refl _
        · exact Nat.le_of_lt (hFirst b hb)
      · rintro ⟨ha, -, hGreatest⟩
        rcases List.mem_cons.mp ha with rfl | ha
        · rfl
        · have hLess := hFirst a ha
          have hLeast := hGreatest first List.mem_cons_self hp
          omega
    · rw [List.find?_cons_of_neg hp, ih hRest]
      constructor
      · rintro ⟨ha, hpa, hGreatest⟩
        refine ⟨List.mem_cons_of_mem first ha, hpa, List.forall_mem_cons.mpr ⟨?_, hGreatest⟩⟩
        exact fun hFirst => absurd hFirst hp
      · rintro ⟨ha, hpa, hGreatest⟩
        refine ⟨List.mem_of_ne_of_mem ?_ ha, hpa, (List.forall_mem_cons.mp hGreatest).2⟩
        rintro rfl
        exact hp hpa

end Cursor

namespace Tree
set_option autoImplicit false

section
variable {tree : Tree} {c : Cursor}

/-- A node stands at its own position in document order. -/
theorem getElem?_nodes_position (hNode : c ∈ tree.nodes) : tree.nodes[c.position]? = some c := by
  obtain ⟨index, hIndex, hNode⟩ := List.getElem_of_mem hNode
  have hPositions : tree.nodes.map Cursor.position = List.range' 0 tree.size :=
    Cursor.map_position_subtree (Cursor.root tree)
  have hLength : index < (tree.nodes.map Cursor.position).length := by rwa [List.length_map]
  have hPosition : c.position = index := by
    rw [← hNode, ← List.getElem_map Cursor.position (h := hLength), List.getElem_of_eq hPositions,
      List.getElem_range', Nat.zero_add, Nat.one_mul]
  rw [hPosition, List.getElem?_eq_getElem hIndex, hNode]

theorem eq_of_position_eq {d : Cursor} (hc : c ∈ tree.nodes) (hd : d ∈ tree.nodes)
    (h : c.position = d.position) : c = d := by
  have hSame := getElem?_nodes_position hc
  rw [h, getElem?_nodes_position hd] at hSame
  exact (Option.some.inj hSame).symm

theorem mem_subtree_iff_position {d : Cursor} (hc : c ∈ tree.nodes) (hd : d ∈ tree.nodes) :
    d ∈ c.subtree ↔ c.position ≤ d.position ∧ d.position < c.position + c.tree.size := by
  rw [← List.mem_range'_1, ← Cursor.map_position_subtree, List.mem_map]
  constructor
  · intro h
    exact ⟨d, h, rfl⟩
  · rintro ⟨other, hOther, hPosition⟩
    rwa [← eq_of_position_eq (Cursor.mem_subtree_trans hc hOther) hd hPosition]

theorem mem_ancestors_iff_position (hNode : c ∈ tree.nodes) (a : Cursor) :
    a ∈ c.ancestors ↔
      a ∈ tree.nodes ∧ a.position < c.position ∧ c.position < a.position + a.tree.size := by
  rw [mem_ancestors_iff hNode]
  refine and_congr_right fun ha => ?_
  constructor
  · intro hBelow
    have hIn := (mem_subtree_iff_position ha hNode).mp (Cursor.mem_subtree_of_mem_below hBelow)
    exact ⟨Cursor.position_lt_of_mem_below hBelow, hIn.2⟩
  · rintro ⟨hAfter, hBefore⟩
    have hIn := (mem_subtree_iff_position ha hNode).mpr ⟨Nat.le_of_lt hAfter, hBefore⟩
    refine (Cursor.mem_subtree_iff.mp hIn).resolve_left ?_
    rintro rfl
    exact Nat.lt_irrefl _ hAfter

theorem ancestors_descend (hNode : c ∈ tree.nodes) :
    (c :: c.ancestors).Pairwise fun a b => b.position < a.position := by
  apply Cursor.subtree_induction (motive := fun d =>
    (d :: d.ancestors).Pairwise fun a b => b.position < a.position) _ _ c hNode
  · exact List.pairwise_singleton _ _
  · intro parent hParent ih child hChild
    have hLess := Cursor.position_lt_of_mem_below (Cursor.mem_below_of_mem_children hChild)
    rw [Cursor.ancestors_of_mem_children hChild]
    refine List.pairwise_cons.mpr ⟨List.forall_mem_cons.mpr ⟨hLess, ?_⟩, ih⟩
    intro a ha
    exact Nat.lt_trans ((List.pairwise_cons.mp ih).1 a ha) hLess

theorem getLast?_ancestors (hNode : c ∈ tree.nodes) :
    (c :: c.ancestors).getLast? = some (Cursor.root tree) := by
  apply Cursor.subtree_induction (motive := fun d =>
    (d :: d.ancestors).getLast? = some (Cursor.root tree)) _ _ c hNode
  · rfl
  · intro parent hParent ih child hChild
    rw [Cursor.ancestors_of_mem_children hChild, List.getLast?_cons_cons, ih]

/-- Of the nodes of some kinds that hold `c`, the one that stands last in document order. -/
structure IsNearest (tree : Tree) (kinds : List String) (c a : Cursor) : Prop where
  node : a ∈ tree.nodes
  holds : c ∈ a.below
  kind : a.kind ∈ kinds
  last : ∀ b ∈ tree.nodes, c ∈ b.below → b.kind ∈ kinds → b.position ≤ a.position

theorem ancestorOfKinds?_eq_some_iff (hNode : c ∈ tree.nodes) (kinds : List String) (a : Cursor) :
    c.ancestorOfKinds? kinds = some a ↔ IsNearest tree kinds c a := by
  have hDescend := (List.pairwise_cons.mp (ancestors_descend hNode)).2
  have hKind (b : Cursor) : b.hasKindIn kinds = true ↔ b.kind ∈ kinds := List.contains_iff_mem
  rw [Cursor.ancestorOfKinds?, Cursor.find?_eq_some_iff_greatest hDescend]
  simp only [mem_ancestors_iff hNode, hKind]
  constructor
  · rintro ⟨⟨hIn, hHolds⟩, hKinds, hLast⟩
    exact ⟨hIn, hHolds, hKinds, fun b hb hBelow => hLast b ⟨hb, hBelow⟩⟩
  · intro h
    exact ⟨⟨h.node, h.holds⟩, h.kind, fun b hb => h.last b hb.1 hb.2⟩

end

/-- What a climb from a node meets, and what is looked up on its way. -/
structure ClimbedFrom (tree : Tree) (c : Cursor) : Prop where
  found_iff : ∀ a ∈ tree.nodes, c ∈ a.findKinds [c.kind] ↔ a = c ∨ a ∈ c.ancestors
  moves : ∀ moves, c.climb? (moves + 1) = c.ancestors[moves]?
  mem_iff : ∀ a, a ∈ c.ancestors ↔
    a ∈ tree.nodes ∧ a.position < c.position ∧ c.position < a.position + a.tree.size
  inOrder : ∀ a ∈ c :: c.ancestors, tree.nodes[a.position]? = some a
  descend : (c :: c.ancestors).Pairwise fun a b => b.position < a.position
  nodup : c.ancestors.Nodup
  root : c = Cursor.root tree → c.ancestors = []
  last : c ≠ Cursor.root tree → c.ancestors.getLast? = some (Cursor.root tree)
  ofKind : ∀ kind, c.ancestorsOfKind kind = c.ancestors.filter fun a => decide (a.kind = kind)
  nearest_iff : ∀ kinds a, c.ancestorOfKinds? kinds = some a ↔ IsNearest tree kinds c a

theorem climbed_from (tree : Tree) (c : Cursor) (hNode : c ∈ tree.nodes) : ClimbedFrom tree c where
  found_iff a ha := by
    rw [Cursor.mem_findKinds_self_iff, Cursor.mem_subtree_iff, mem_ancestors_iff hNode,
      and_iff_right ha, eq_comm]
  moves := c.climb?_succ
  mem_iff := mem_ancestors_iff_position hNode
  inOrder := by
    refine List.forall_mem_cons.mpr ⟨getElem?_nodes_position hNode, ?_⟩
    intro a ha
    exact getElem?_nodes_position ((mem_ancestors_iff hNode a).mp ha).1
  descend := ancestors_descend hNode
  nodup := by
    refine (List.pairwise_cons.mp (ancestors_descend hNode)).2.imp ?_
    rintro a b hLess rfl
    exact Nat.lt_irrefl _ hLess
  root := by
    rintro rfl
    rfl
  last := by
    intro hOther
    have hLast := getLast?_ancestors hNode
    cases hAncestors : c.ancestors with
    | nil =>
      rw [hAncestors, List.getLast?_singleton] at hLast
      exact absurd (Option.some.inj hLast) hOther
    | cons parent others => rwa [hAncestors, List.getLast?_cons_cons] at hLast
  ofKind kind := rfl
  nearest_iff := ancestorOfKinds?_eq_some_iff hNode

/-- A method of a struct in two namespaces, and a function after the inner one. -/
def methodInNamespaces : Tree :=
  .node ⟨"translation_unit", true, 0, 60, 0, 6⟩
    [.node ⟨"namespace_definition", true, 0, 60, 0, 6⟩
      [.node ⟨"namespace_definition", true, 12, 45, 1, 4⟩
        [.node ⟨"struct_specifier", true, 24, 43, 2, 3⟩
          [.node ⟨"function_definition", true, 32, 42, 3, 3⟩ []]],
      .node ⟨"function_definition", true, 46, 58, 5, 5⟩ []]]

theorem methodInNamespaces_climbed :
    ∃ c ∈ methodInNamespaces.nodes, c.kind = "function_definition" ∧
      ClimbedFrom methodInNamespaces c ∧ c.ancestors.map Cursor.position = [3, 2, 1, 0] ∧
      (c.ancestorsOfKind "namespace_definition").map Cursor.position = [2, 1] ∧
      ∃ a, IsNearest methodInNamespaces ["namespace_definition"] c a ∧ a.position = 2 := by
  have hSome : methodInNamespaces.nodes[4]?.isSome = true := by decide
  obtain ⟨c, hc⟩ := Option.isSome_iff_exists.mp hSome
  have hNode : c ∈ methodInNamespaces.nodes := List.mem_of_getElem? hc
  have hClimbed := climbed_from methodInNamespaces c hNode
  cases hc
  refine ⟨_, hNode, rfl, hClimbed, rfl, rfl, ?_⟩
  exact ⟨_, (hClimbed.nearest_iff ["namespace_definition"] _).mp rfl, rfl⟩

end Tree
end FunctionIndex
