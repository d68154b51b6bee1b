import FunctionIndex.Proofs.Definition.Basic

/-! # Properties of definitions

The properties of a function are three lists one after the other: whether its parent is a template,
the specifiers among its children, and the qualifiers cut out of its declarator. No property can come
from two of them, and none of them gives the property of a macro.
-/
namespace FunctionIndex

namespace Property
set_option autoImplicit false

theorem foldl_insert_of_nodup (found properties : List Property)
    (h : (properties ++ found).Nodup) :
    found.foldl insert properties = properties ++ found := by
  induction found generalizing properties with
  | nil => rw [List.foldl_nil, List.append_nil]
  | cons property found ih =>
    have hNew : property ∉ properties := by
      intro hOld
      exact (List.nodup_append.mp h).2.2 property hOld property List.mem_cons_self rfl
    have hInsert : insert properties property = properties ++ [property] := by
      rw [insert, if_neg (by simpa using hNew)]
    rw [List.append_cons] at h
    rw [List.foldl_cons, hInsert, ih _ h, ← List.append_cons]

theorem foldl_insert (found properties : List Property) :
    found.foldl insert properties =
      properties ++ (found.filter fun property => !properties.contains property).eraseDups := by
  induction found generalizing properties with
  | nil => rw [List.foldl_nil, List.filter_nil, List.eraseDups_nil, List.append_nil]
  | cons property found ih =>
    rw [List.foldl_cons, ih, insert]
    split
    · rename_i hOld
      rw [List.filter_cons_of_neg (by rw [hOld]; decide)]
    · rename_i hNew
      have hFilter : found.filter (fun p => !(properties ++ [property]).contains p) =
          (found.filter fun p => !properties.contains p).filter fun p => !p == property := by
        rw [List.filter_filter]
        apply List.filter_congr
        intro p _
        by_cases h : p = property <;> simp [h]
      rw [List.filter_cons_of_pos (by simpa using hNew), List.eraseDups_cons, hFilter,
        ← List.append_cons]

def ofParent (parentKind : Option String) : List Property :=
  if parentKind = some Kind.templateDeclaration then [.template] else []

theorem eraseDups_cons_of_pair {first other : Property} (hOther : other ≠ first)
    {found : List Property} (h : ∀ p ∈ found, p = first ∨ p = other) :
    (first :: found).eraseDups = if other ∈ found then [first, other] else [first] := by
  rw [List.eraseDups_cons]
  have hOnly : ∀ p ∈ found.filter fun p => !p == first, p = other := by
    intro p hp
    obtain ⟨hFound, hFirst⟩ := List.mem_filter.mp hp
    exact (h p hFound).resolve_left (by simpa using hFirst)
  cases hRest : found.filter fun p => !p == first with
  | nil =>
    have hAbsent : other ∉ found := by
      intro hFound
      have hKept : other ∈ found.filter fun p => !p == first :=
        List.mem_filter.mpr ⟨hFound, by simpa using hOther⟩
      rw [hRest] at hKept
      cases hKept
    rw [if_neg hAbsent]
    rfl
  | cons second rest =>
    rw [hRest] at hOnly
    obtain ⟨rfl, hOnly⟩ := List.forall_mem_cons.mp hOnly
    have hFound : second ∈ found :=
      (List.mem_filter.mp (hRest ▸ List.mem_cons_self : second ∈ found.filter _)).1
    have hNone : rest.filter (fun p => !p == second) = [] := by
      apply List.filter_eq_nil_iff.mpr
      intro p hp
      simp [hOnly p hp]
    rw [List.eraseDups_cons, hNone, if_pos hFound]
    rfl

end Property

namespace Qualifier
set_option autoImplicit false

theorem stripFrom_sublist (name : List Char) (properties : List Property) :
    (stripFrom name properties).2.Sublist properties := by
  induction properties generalizing name with
  | nil => exact List.Sublist.slnil
  | cons property properties ih =>
    rw [stripFrom]
    split
    · exact (ih _).cons_cons property
    · exact (ih _).cons property

theorem strip_sublist (name : String) : (strip name).2.Sublist Property.embedded :=
  stripFrom_sublist name.toList Property.embedded

end Qualifier

namespace Tree
set_option autoImplicit false

def isStatic (source : String) (tree : Tree) : Bool :=
  tree.kind == Kind.storageClass && tree.text source == "static"

def isVirtual (source : String) (tree : Tree) : Bool :=
  tree.kind == Kind.virtualKeyword ||
    (tree.kind == Kind.virtualSpecifier && tree.text source == "virtual")

/-- The two specifiers in the order of the places where they first stand. -/
def inOrder : Option Nat → Option Nat → List Property
  | none, none => []
  | some _, none => [.static]
  | none, some _ => [.virtual]
  | some static, some virtual =>
    if static < virtual then [.static, .virtual] else [.virtual, .static]

def specifiers (source : String) (tree : Tree) : List Property :=
  inOrder (tree.children.findIdx? (isStatic source)) (tree.children.findIdx? (isVirtual source))

theorem isVirtual_eq_false_of_isStatic {source : String} {tree : Tree}
    (h : tree.isStatic source = true) : tree.isVirtual source = false := by
  rw [isStatic, Bool.and_eq_true, beq_iff_eq] at h
  rw [isVirtual, h.1]
  rfl

theorem inOrder_map_succ (static virtual : Option Nat) :
    inOrder (static.map (· + 1)) (virtual.map (· + 1)) = inOrder static virtual := by
  cases static <;> cases virtual <;> simp [inOrder]

theorem inOrder_sublist (static virtual : Option Nat) :
    (inOrder static virtual).Sublist [.static, .virtual] ∨
      (inOrder static virtual).Sublist [.virtual, .static] := by
  cases static with
  | none => cases virtual <;> simp [inOrder]
  | some first =>
    cases virtual with
    | none => simp [inOrder]
    | some second =>
      rw [inOrder]
      split
      · exact .inl (List.Sublist.refl _)
      · exact .inr (List.Sublist.refl _)

theorem inOrder_static_first (virtual : Option Nat) :
    inOrder (some 0) (virtual.map (· + 1)) =
      if virtual.isSome = true then [.static, .virtual] else [.static] := by
  cases virtual <;> simp [inOrder]

theorem inOrder_virtual_first (static : Option Nat) :
    inOrder (static.map (· + 1)) (some 0) =
      if static.isSome = true then [.virtual, .static] else [.virtual] := by
  cases static <;> simp [inOrder]

end Tree

namespace Cursor
set_option autoImplicit false

theorem specifier?_eq (source : String) (c : Cursor) :
    specifier? source c =
      if c.tree.isStatic source then some .static
      else if c.tree.isVirtual source then some .virtual
      else none := by
  have hText : c.text source = c.tree.text source := rfl
  have hKind : c.kind = c.tree.kind := rfl
  rw [specifier?, hText, hKind, Tree.isStatic, Tree.isVirtual]
  by_cases hStorage : c.tree.kind = Kind.storageClass
  · simp [hStorage, Kind.storageClass, Kind.virtualKeyword, Kind.virtualSpecifier]
  · by_cases hSpecifier : c.tree.kind = Kind.virtualSpecifier
    · simp [hSpecifier, Kind.storageClass, Kind.virtualKeyword, Kind.virtualSpecifier]
    · simp [hStorage, hSpecifier]

theorem specifier?_eq_static_iff (source : String) (c : Cursor) :
    specifier? source c = some .static ↔ c.tree.isStatic source = true := by
  rw [specifier?_eq]
  split
  · simp_all
  · split <;> simp_all

theorem specifier?_eq_virtual_iff (source : String) (c : Cursor) :
    specifier? source c = some .virtual ↔ c.tree.isVirtual source = true := by
  rw [specifier?_eq]
  split
  · rename_i hStatic
    simp [Tree.isVirtual_eq_false_of_isStatic hStatic]
  · split <;> simp_all

theorem eq_of_mem_specifiers {source : String} {children : List Cursor} {property : Property}
    (h : property ∈ children.filterMap (specifier? source)) :
    property = .static ∨ property = .virtual := by
  obtain ⟨child, -, hProperty⟩ := List.mem_filterMap.mp h
  rw [specifier?_eq] at hProperty
  split at hProperty
  · exact .inl (Option.some.inj hProperty).symm
  · split at hProperty
    · exact .inr (Option.some.inj hProperty).symm
    · cases hProperty

theorem mem_specifiers_iff {source : String} {property : Property} {gives : Tree → Bool}
    (hGives : ∀ c, specifier? source c = some property ↔ gives c.tree = true)
    (children : List Cursor) :
    property ∈ children.filterMap (specifier? source) ↔
      ∃ child ∈ children, gives child.tree = true := by
  rw [List.mem_filterMap]
  exact exists_congr fun child => and_congr_right fun _ => hGives child

theorem mem_specifiers_iff_isSome {source : String} {property : Property} {gives : Tree → Bool}
    (hGives : ∀ c, specifier? source c = some property ↔ gives c.tree = true)
    (children : List Cursor) :
    property ∈ children.filterMap (specifier? source) ↔
      (children.findIdx? fun child => gives child.tree).isSome = true := by
  rw [mem_specifiers_iff hGives, List.findIdx?_isSome, List.any_eq_true]

/-- The first occurrences among the specifiers are ordered by the first children that give them. -/
theorem eraseDups_specifiers (source : String) (children : List Cursor) :
    (children.filterMap (specifier? source)).eraseDups =
      Tree.inOrder (children.findIdx? fun child => child.tree.isStatic source)
        (children.findIdx? fun child => child.tree.isVirtual source) := by
  induction children with
  | nil => rfl
  | cons child children ih =>
    have hPair : ∀ p ∈ children.filterMap (specifier? source), p = .static ∨ p = .virtual :=
      fun _ hp => eq_of_mem_specifiers hp
    rw [List.findIdx?_cons, List.findIdx?_cons]
    by_cases hStatic : child.tree.isStatic source = true
    · have hVirtual := Tree.isVirtual_eq_false_of_isStatic hStatic
      rw [List.filterMap_cons_some ((specifier?_eq_static_iff source child).mpr hStatic),
        if_pos hStatic, if_neg (by simp [hVirtual]), Tree.inOrder_static_first,
        Property.eraseDups_cons_of_pair (by decide) hPair]
      simp only [mem_specifiers_iff_isSome (specifier?_eq_virtual_iff source)]
    · rw [if_neg hStatic]
      by_cases hVirtual : child.tree.isVirtual source = true
      · rw [List.filterMap_cons_some ((specifier?_eq_virtual_iff source child).mpr hVirtual),
          if_pos hVirtual, Tree.inOrder_virtual_first,
          Property.eraseDups_cons_of_pair (by decide) fun p hp => (hPair p hp).symm]
        simp only [mem_specifiers_iff_isSome (specifier?_eq_static_iff source)]
      · have hNone : specifier? source child = none := by
          rw [specifier?_eq, if_neg hStatic, if_neg hVirtual]
        rw [List.filterMap_cons_none hNone, if_neg hVirtual, Tree.inOrder_map_succ, ih]

theorem eraseDups_children_specifiers (source : String) (c : Cursor) :
    (c.children.filterMap (specifier? source)).eraseDups = c.tree.specifiers source := by
  rw [eraseDups_specifiers, Tree.specifiers, ← map_tree_children, List.findIdx?_map,
    List.findIdx?_map]
  rfl

theorem structuralProperties_eq (source : String) (c : Cursor) :
    c.structuralProperties source =
      Property.ofParent (c.parent?.map kind) ++ c.tree.specifiers source := by
  have hStart : (if c.isTemplateMember then [Property.template] else []) =
      Property.ofParent (c.parent?.map kind) := by
    rw [isTemplateMember, Property.ofParent]
    cases c.parent? with
    | none => rfl
    | some parent => simp
  -- No child gives the template property, so the parent's part takes nothing away.
  have hKeep : (c.children.filterMap (specifier? source)).filter (fun p =>
      !(Property.ofParent (c.parent?.map kind)).contains p) =
        c.children.filterMap (specifier? source) := by
    apply List.filter_eq_self.mpr
    intro p hp
    have hTemplate : p ≠ .template := by
      rcases eq_of_mem_specifiers hp with rfl | rfl <;> decide
    rw [Property.ofParent]
    split <;> simp [hTemplate]
  rw [structuralProperties, hStart, Property.foldl_insert, hKeep, eraseDups_children_specifiers]

theorem eq_of_mem_tree_specifiers {source : String} {c : Cursor} {property : Property}
    (h : property ∈ c.tree.specifiers source) : property = .static ∨ property = .virtual := by
  rw [← eraseDups_children_specifiers, List.mem_eraseDups] at h
  exact eq_of_mem_specifiers h

theorem mem_of_mem_structural {source : String} {c : Cursor} {property : Property}
    (h : property ∈ Property.ofParent (c.parent?.map kind) ++ c.tree.specifiers source) :
    property ∈ [.template, .static, .virtual] := by
  rcases List.mem_append.mp h with hParent | hSpecifier
  · rw [Property.ofParent] at hParent
    split at hParent
    · rw [List.mem_singleton.mp hParent]
      exact List.mem_cons_self
    · cases hParent
  · rcases eq_of_mem_tree_specifiers hSpecifier with rfl | rfl <;> decide

theorem nodup_properties (source : String) (c : Cursor) (name : String) :
    (Property.ofParent (c.parent?.map kind) ++ c.tree.specifiers source ++
      (Qualifier.strip name).2).Nodup := by
  have hParent : (Property.ofParent (c.parent?.map kind)).Sublist [.template] := by
    rw [Property.ofParent]
    split
    · exact List.Sublist.refl _
    · exact List.nil_sublist _
  have hEmbedded := Qualifier.strip_sublist name
  rcases Tree.inOrder_sublist (c.tree.children.findIdx? (Tree.isStatic source))
    (c.tree.children.findIdx? (Tree.isVirtual source)) with hInner | hInner
  · exact ((hParent.append hInner).append hEmbedded).nodup (by decide)
  · exact ((hParent.append hInner).append hEmbedded).nodup (by decide)

theorem functionRecord_properties (source : String) (c : Cursor) :
    (c.functionRecord source).properties = Property.ofParent (c.parent?.map kind) ++
      c.tree.specifiers source ++ (Qualifier.strip (c.functionName source)).2 := by
  have hNodup := nodup_properties source c (c.functionName source)
  rw [← structuralProperties_eq] at hNodup ⊢
  exact Property.foldl_insert_of_nodup _ _ hNodup

end Cursor

/-- What the properties of a record tell about its node, and how they are ordered. -/
structure Classified (source : String) (tree : Tree) (c : Cursor) (record : Record) : Prop where
  macro_iff : .functionMacro ∈ record.properties ↔ c.kind = Kind.macroDefinition
  macro_record : c.kind = Kind.macroDefinition →
    record.properties = [.functionMacro] ∧ record.className = none ∧ record.scope = none
  function_properties : c.kind = Kind.functionDefinition →
    record.properties = Property.ofParent (c.parent?.map Cursor.kind) ++
      c.tree.specifiers source ++ (Qualifier.strip (c.functionName source)).2
  nodup : record.properties.Nodup
  template_iff : Property.ofParent (c.parent?.map Cursor.kind) = [.template] ↔
    ∃ parent ∈ tree.nodes, c ∈ parent.children ∧ parent.kind = "template_declaration"
  static_iff : .static ∈ c.tree.specifiers source ↔
    ∃ child ∈ c.children, child.kind = "storage_class_specifier" ∧ child.text source = "static"
  virtual_iff : .virtual ∈ c.tree.specifiers source ↔
    ∃ child ∈ c.children, child.kind = "virtual" ∨
      (child.kind = "virtual_function_specifier" ∧ child.text source = "virtual")
  embedded : (Qualifier.strip (c.functionName source)).2.Sublist [.override, .volatile, .const]

namespace Cursor

theorem ofParent_eq_template_iff {tree : Tree} {c : Cursor} (hNode : c ∈ tree.nodes) :
    Property.ofParent (c.parent?.map kind) = [.template] ↔
      ∃ parent ∈ tree.nodes, c ∈ parent.children ∧ parent.kind = "template_declaration" := by
  have hKind : Property.ofParent (c.parent?.map kind) = [.template] ↔
      c.parent?.map kind = some "template_declaration" := by
    rw [Property.ofParent, Kind.templateDeclaration]
    split <;> simp_all
  rw [hKind, Option.map_eq_some_iff]
  constructor
  · rintro ⟨parent, hParent, hTemplate⟩
    obtain ⟨hIn, hChild⟩ := (Tree.parent?_eq_some_iff hNode parent).mp hParent
    exact ⟨parent, hIn, hChild, hTemplate⟩
  · rintro ⟨parent, -, hChild, hTemplate⟩
    exact ⟨parent, parent?_of_mem_children hChild, hTemplate⟩

theorem static_mem_tree_specifiers_iff (source : String) (c : Cursor) :
    .static ∈ c.tree.specifiers source ↔
      ∃ child ∈ c.children, child.kind = "storage_class_specifier" ∧
        child.text source = "static" := by
  rw [← eraseDups_children_specifiers, List.mem_eraseDups,
    mem_specifiers_iff (specifier?_eq_static_iff source)]
  simp only [Tree.isStatic, Bool.and_eq_true, beq_iff_eq]
  rfl

theorem virtual_mem_tree_specifiers_iff (source : String) (c : Cursor) :
    .virtual ∈ c.tree.specifiers source ↔
      ∃ child ∈ c.children, child.kind = "virtual" ∨
        (child.kind = "virtual_function_specifier" ∧ child.text source = "virtual") := by
  rw [← eraseDups_children_specifiers, List.mem_eraseDups,
    mem_specifiers_iff (specifier?_eq_virtual_iff source)]
  simp only [Tree.isVirtual, Bool.or_eq_true, Bool.and_eq_true, beq_iff_eq]
  rfl

theorem functionMacro_not_mem (source : String) (c : Cursor) (name : String) :
    Property.functionMacro ∉ Property.ofParent (c.parent?.map kind) ++ c.tree.specifiers source ++
      (Qualifier.strip name).2 := by
  intro h
  rcases List.mem_append.mp h with hStructural | hEmbedded
  · exact absurd (mem_of_mem_structural hStructural) (by decide)
  · exact absurd ((Qualifier.strip_sublist name).subset hEmbedded) (by decide)

theorem macro_classified (source : String) {tree : Tree} {c : Cursor} (hNode : c ∈ tree.nodes)
    (h : c.kind = Kind.macroDefinition) : Classified source tree c (c.macroRecord source) where
  macro_iff := ⟨fun _ => h, fun _ => List.mem_singleton.mpr rfl⟩
  macro_record _ := ⟨rfl, rfl, rfl⟩
  function_properties hFunction :=
    absurd (h.symm.trans hFunction) macroDefinition_ne_functionDefinition
  nodup := List.pairwise_singleton _ _
  template_iff := ofParent_eq_template_iff hNode
  static_iff := static_mem_tree_specifiers_iff source c
  virtual_iff := virtual_mem_tree_specifiers_iff source c
  embedded := Qualifier.strip_sublist _

theorem function_classified (source : String) {tree : Tree} {c : Cursor} (hNode : c ∈ tree.nodes)
    (h : c.kind = Kind.functionDefinition) :
    Classified source tree c (c.functionRecord source) where
  macro_iff := by
    rw [functionRecord_properties, h]
    exact iff_of_false (functionMacro_not_mem source c _) macroDefinition_ne_functionDefinition.symm
  macro_record hMacro := absurd (hMacro.symm.trans h) macroDefinition_ne_functionDefinition
  function_properties _ := functionRecord_properties source c
  nodup := by
    rw [functionRecord_properties]
    exact nodup_properties source c _
  template_iff := ofParent_eq_template_iff hNode
  static_iff := static_mem_tree_specifiers_iff source c
  virtual_iff := virtual_mem_tree_specifiers_iff source c
  embedded := Qualifier.strip_sublist _

end Cursor

namespace Tree

theorem records_classified (source : String) (tree : Tree) :
    List.Forall₂ (Classified source tree) tree.definitionNodes (tree.records source) := by
  apply forall₂_records
  intro c hc
  obtain ⟨hNode, hFunction | hMacro⟩ := mem_definitionNodes_iff.mp hc
  · rw [Cursor.definition_eq_functionRecord hFunction]
    exact Cursor.function_classified source hNode hFunction
  · rw [Cursor.definition_eq_macroRecord hMacro]
    exact Cursor.macro_classified source hNode hMacro

end Tree
end FunctionIndex
