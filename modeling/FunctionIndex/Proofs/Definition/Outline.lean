import FunctionIndex.Proofs.Definition.Properties

/-! # Outlines

An outline is made in one pass from the root down. The pass carries what the nodes around a place
tell: the nearest class, the namespaces from the innermost outwards, the kind of the parent. A
definition gets its record from its own tree and from what is carried, so nothing is looked up
above it. The records of a tree are its outline.
-/
namespace FunctionIndex

structure Surroundings where
  className : Option String
  namespaces : List String
  parentKind : Option String

namespace Surroundings
set_option autoImplicit false

def outermost : Surroundings := ⟨none, [], none⟩

/-- What is carried from a node to its children. -/
def enter (source : String) (tree : Tree) (around : Surroundings) : Surroundings where
  className :=
    if tree.kind = "class_specifier" ∨ tree.kind = "struct_specifier" then
      some (tree.nameAmong source ["type_identifier", "template_type"])
    else around.className
  namespaces :=
    if tree.kind = "namespace_definition" then
      tree.nameAmong source ["namespace_identifier", "identifier"] :: around.namespaces
    else around.namespaces
  parentKind := some tree.kind

def scope (around : Surroundings) : Option String :=
  if around.namespaces = [] then none else some (String.intercalate "::" around.namespaces)

end Surroundings

namespace Tree
set_option autoImplicit false

def functionRecord (source : String) (around : Surroundings) (tree : Tree) : Record :=
  let stripped :=
    Qualifier.strip (tree.nameAmong source ["function_declarator", "reference_declarator"])
  { name := stripped.1
    start := (tree.label.span false).start
    stop := (tree.label.span false).stop
    className := around.className
    scope := around.scope
    properties := Property.ofParent around.parentKind ++ tree.specifiers source ++ stripped.2 }

def macroRecord (source : String) (tree : Tree) : Record where
  name := tree.nameAmong source ["identifier"]
  start := (tree.label.span true).start
  stop := (tree.label.span true).stop
  className := none
  scope := none
  properties := [.functionMacro]

def record? (source : String) (around : Surroundings) (tree : Tree) : Option Record :=
  if tree.kind = "function_definition" then some (tree.functionRecord source around)
  else if tree.kind = "preproc_function_def" then some (tree.macroRecord source)
  else none

mutual

def outline (source : String) (around : Surroundings) : Tree → List Record
  | .node label children =>
    (record? source around (.node label children)).toList ++
      forestOutline source (around.enter source (.node label children)) children

def forestOutline (source : String) (around : Surroundings) : List Tree → List Record
  | [] => []
  | tree :: later => outline source around tree ++ forestOutline source around later

end

theorem forestOutline_eq_flatMap (source : String) (around : Surroundings) (trees : List Tree) :
    forestOutline source around trees = trees.flatMap (outline source around) := by
  induction trees with
  | nil => rw [forestOutline, List.flatMap_nil]
  | cons tree later ih => rw [forestOutline, List.flatMap_cons, ih]

theorem outline_eq (source : String) (around : Surroundings) (tree : Tree) :
    tree.outline source around = (tree.record? source around).toList ++
      tree.children.flatMap (outline source (around.enter source tree)) := by
  cases tree with
  | node label children =>
    rw [outline, forestOutline_eq_flatMap]
    rfl

end Tree

namespace Cursor
set_option autoImplicit false

/-- What the ancestors of a node tell, looked up from the node. -/
def surroundings (source : String) (c : Cursor) : Surroundings where
  className := c.enclosingClass source
  namespaces := c.enclosingNamespaces source
  parentKind := c.parent?.map kind

theorem surroundings_root (source : String) (tree : Tree) :
    (Cursor.root tree).surroundings source = .outermost := rfl

theorem enclosingClass_child {c child : Cursor} (h : child ∈ c.children) (source : String) :
    child.enclosingClass source =
      if c.tree.kind = "class_specifier" ∨ c.tree.kind = "struct_specifier" then
        some (c.tree.nameAmong source ["type_identifier", "template_type"])
      else c.enclosingClass source := by
  rw [enclosingClass, ancestorOfKinds?, ancestors_of_mem_children h, List.find?_cons]
  have hKind : c.hasKindIn Kind.classes = true ↔
      c.tree.kind = "class_specifier" ∨ c.tree.kind = "struct_specifier" := by
    simp [hasKindIn, Kind.classes, kind, label, Tree.kind]
  split
  · rename_i hClass
    rw [if_pos (hKind.mp hClass), ← nameAmong_eq_tree]
    rfl
  · rename_i hOther
    rw [if_neg fun h => Bool.false_ne_true (hOther.symm.trans (hKind.mpr h))]
    rfl

theorem enclosingNamespaces_child {c child : Cursor} (h : child ∈ c.children) (source : String) :
    child.enclosingNamespaces source =
      if c.tree.kind = "namespace_definition" then
        c.tree.nameAmong source ["namespace_identifier", "identifier"] ::
          c.enclosingNamespaces source
      else c.enclosingNamespaces source := by
  rw [enclosingNamespaces, ancestorsOfKind, ancestors_of_mem_children h]
  by_cases hKind : c.tree.kind = "namespace_definition"
  · rw [List.filter_cons_of_pos (by exact beq_iff_eq.mpr hKind), List.map_cons, if_pos hKind,
      ← nameAmong_eq_tree]
    rfl
  · rw [List.filter_cons_of_neg (by exact fun h => hKind (beq_iff_eq.mp h)), if_neg hKind]
    rfl

theorem surroundings_child {c child : Cursor} (h : child ∈ c.children) (source : String) :
    child.surroundings source = (c.surroundings source).enter source c.tree := by
  rw [surroundings, enclosingClass_child h, enclosingNamespaces_child h, parent?_of_mem_children h]
  rfl

theorem scope_eq (source : String) (c : Cursor) :
    c.scope source = (c.surroundings source).scope := by
  rw [scope, Surroundings.scope, surroundings]
  cases c.enclosingNamespaces source with
  | nil => rfl
  | cons name names => rw [if_neg (List.cons_ne_nil _ _)]

theorem functionRecord_eq_tree (source : String) (c : Cursor) :
    c.functionRecord source = c.tree.functionRecord source (c.surroundings source) := by
  have hFields : c.functionRecord source =
      { name := (Qualifier.strip (c.functionName source)).1
        start := (c.label.span false).start
        stop := (c.label.span false).stop
        className := c.enclosingClass source
        scope := c.scope source
        properties := (c.functionRecord source).properties } := rfl
  rw [hFields, functionRecord_properties, scope_eq, functionName, nameAmong_eq_tree]
  rfl

theorem macroRecord_eq_tree (source : String) (c : Cursor) :
    c.macroRecord source = c.tree.macroRecord source := by
  rw [macroRecord, macroName, nameAmong_eq_tree]
  rfl

theorem toList_record? (source : String) (c : Cursor) :
    (c.tree.record? source (c.surroundings source)).toList =
      if c.hasKindIn Kind.definitions then [(c.definition source).record] else [] := by
  rw [Tree.record?]
  by_cases hFunction : c.tree.kind = "function_definition"
  · rw [if_pos hFunction, if_pos ((hasKindIn_definitions_iff c).mpr (.inl hFunction)),
      definition_eq_functionRecord hFunction, functionRecord_eq_tree]
    rfl
  · by_cases hMacro : c.tree.kind = "preproc_function_def"
    · rw [if_neg hFunction, if_pos hMacro, if_pos ((hasKindIn_definitions_iff c).mpr (.inr hMacro)),
        definition_eq_macroRecord hMacro, macroRecord_eq_tree]
      rfl
    · rw [if_neg hFunction, if_neg hMacro,
        if_neg fun h => ((hasKindIn_definitions_iff c).mp h).elim hFunction hMacro]
      rfl

/-- What the pass emits below a node, when it arrives there with what the ancestors tell. -/
theorem outline_surroundings (source : String) (c : Cursor) :
    c.tree.outline source (c.surroundings source) =
      (c.subtree.filter (hasKindIn Kind.definitions)).map fun d => (d.definition source).record := by
  induction c using children_induction with
  | step c ih =>
    -- The pass enters a child with the very surroundings that the child looks up from below.
    have hChildren : c.tree.children.flatMap
        (Tree.outline source ((c.surroundings source).enter source c.tree)) =
          c.children.flatMap fun child => (child.subtree.filter (hasKindIn Kind.definitions)).map
            fun d => (d.definition source).record := by
      rw [← map_tree_children, List.flatMap_map]
      apply List.flatMap_congr
      intro child hChild
      rw [← surroundings_child hChild, ih child hChild]
    rw [Tree.outline_eq, hChildren, toList_record?, subtree_eq_cons, below, List.filter_cons]
    split
    · rw [List.map_cons, List.filter_flatMap, List.map_flatMap]
      rfl
    · rw [List.filter_flatMap, List.map_flatMap]
      rfl

theorem enclosingClass_eq_none_iff (source : String) (c : Cursor) :
    c.enclosingClass source = none ↔
      ∀ a ∈ c.ancestors, a.kind ≠ "class_specifier" ∧ a.kind ≠ "struct_specifier" := by
  rw [enclosingClass, Option.map_eq_none_iff, ancestorOfKinds?, List.find?_eq_none]
  simp [hasKindIn, Kind.classes]

theorem scope_eq_none_iff (source : String) (c : Cursor) :
    c.scope source = none ↔ ∀ a ∈ c.ancestors, a.kind ≠ "namespace_definition" := by
  have hNames : c.scope source = none ↔ c.enclosingNamespaces source = [] := by
    rw [scope_eq, Surroundings.scope, surroundings]
    simp
  rw [hNames, enclosingNamespaces, List.map_eq_nil_iff, ancestorsOfKind, List.filter_eq_nil_iff]
  simp [Kind.namespaceDefinition]

end Cursor

/-- The record is made from its node, and its scope tells whether a class or a namespace of the tree
holds the node. -/
structure Attributed (source : String) (tree : Tree) (c : Cursor) (record : Record) : Prop where
  of_node : ∃ around, c.tree.record? source around = some record
  className_none_iff : record.className = none ↔ c.kind = Kind.macroDefinition ∨
    ∀ a ∈ tree.nodes, c ∈ a.below → a.kind ≠ "class_specifier" ∧ a.kind ≠ "struct_specifier"
  scope_none_iff : record.scope = none ↔ c.kind = Kind.macroDefinition ∨
    ∀ a ∈ tree.nodes, c ∈ a.below → a.kind ≠ "namespace_definition"

namespace Tree

theorem forall_ancestors_iff {tree : Tree} {c : Cursor} (hNode : c ∈ tree.nodes)
    (p : Cursor → Prop) :
    (∀ a ∈ c.ancestors, p a) ↔ ∀ a ∈ tree.nodes, c ∈ a.below → p a := by
  constructor
  · intro h a ha hBelow
    exact h a ((mem_ancestors_iff hNode a).mpr ⟨ha, hBelow⟩)
  · intro h a ha
    obtain ⟨hIn, hBelow⟩ := (mem_ancestors_iff hNode a).mp ha
    exact h a hIn hBelow

theorem attributed_definition (source : String) {tree : Tree} {c : Cursor}
    (h : c ∈ tree.definitionNodes) : Attributed source tree c (c.definition source).record := by
  obtain ⟨hNode, hKind⟩ := mem_definitionNodes_iff.mp h
  have hRecord := Cursor.toList_record? source c
  rw [if_pos ((Cursor.hasKindIn_definitions_iff c).mpr hKind), Option.toList_eq_singleton_iff]
    at hRecord
  rcases hKind with hFunction | hMacro
  · have hOther : c.kind ≠ Kind.macroDefinition :=
      fun hMacro => Cursor.macroDefinition_ne_functionDefinition (hMacro.symm.trans hFunction)
    refine ⟨⟨_, hRecord⟩, ?_, ?_⟩
    · rw [Cursor.definition_eq_functionRecord hFunction, or_iff_right hOther,
        ← forall_ancestors_iff hNode]
      exact Cursor.enclosingClass_eq_none_iff source c
    · rw [Cursor.definition_eq_functionRecord hFunction, or_iff_right hOther,
        ← forall_ancestors_iff hNode]
      exact Cursor.scope_eq_none_iff source c
  · refine ⟨⟨_, hRecord⟩, ?_, ?_⟩
    · rw [Cursor.definition_eq_macroRecord hMacro]
      exact iff_of_true rfl (.inl hMacro)
    · rw [Cursor.definition_eq_macroRecord hMacro]
      exact iff_of_true rfl (.inl hMacro)

/-- The climb from every definition and the pass from the root down give the same records: one for
each definition node, which stand in document order and are all different. -/
theorem records_eq_outline (source : String) (tree : Tree) :
    tree.records source = tree.outline source .outermost ∧
      List.Forall₂ (Attributed source tree) tree.definitionNodes (tree.records source) ∧
      tree.definitionNodes.Pairwise (fun a b => a.position < b.position) ∧
      tree.nodes.map Cursor.position = List.range tree.size := by
  refine ⟨?_, ?_, ?_, ?_⟩
  · rw [records_eq_map, definitionNodes, nodes, ← Cursor.outline_surroundings,
      Cursor.surroundings_root]
    rfl
  · exact forall₂_records fun c hc => attributed_definition source hc
  · exact (Cursor.subtree_pairwise_lt _).filter _
  · rw [nodes, Cursor.map_position_subtree, List.range_eq_range']
    rfl

end Tree
end FunctionIndex
