import FunctionIndex.Proofs.Definition.Qualifier

/-! # Stripped names

Qualifiers that trail a declarator are recovered in whatever order they stand there. In any name the
keywords behind a space are found, and if none of them is glued to a keyword or repeated, a stripped
name holds none any more.
-/
namespace FunctionIndex.Qualifier
set_option autoImplicit false

theorem strip_eq (name : String) :
    strip name = (String.ofList (stripFrom name.toList Property.embedded).1,
      (stripFrom name.toList Property.embedded).2) := rfl

theorem toList_strip (name : String) :
    (strip name).1.toList = (stripFrom name.toList Property.embedded).1 := by
  rw [strip_eq, String.toList_ofList]

instance (name : List Char) : Decidable (Unglued name) :=
  inferInstanceAs (Decidable (∀ p ∈ Property.embedded, ∀ q ∈ Property.embedded,
    ¬token p ++ q.keyword.toList <:+: name))

/-- What stripping finds in a name, and what it leaves of the keywords. -/
structure Detected (name : String) : Prop where
  found : ∀ property ∈ Property.embedded, token property <:+: name.toList →
    property ∈ (strip name).2
  found_exactly : Unglued name.toList →
    (strip name).2 = Property.embedded.filter (token · <:+: name.toList)
  gone : Unglued name.toList →
    (∀ property ∈ Property.embedded, Text.occurrences (token property) name.toList ≤ 1) →
    ∀ property ∈ Property.embedded, ¬token property <:+: (strip name).1.toList
  stable : Unglued name.toList →
    (∀ property ∈ Property.embedded, Text.occurrences (token property) name.toList ≤ 1) →
    strip (strip name).1 = ((strip name).1, [])

theorem strip_of_absent {name : String}
    (h : ∀ property ∈ Property.embedded, ¬token property <:+: name.toList) :
    strip name = (name, []) := by
  rw [strip_eq, stripFrom_of_absent h, String.ofList_toList]

theorem Unglued.absent_strip {name : String} (hUnglued : Unglued name.toList)
    (hName : Text.Spaced name.toList)
    (hOnce : ∀ property ∈ Property.embedded, Text.occurrences (token property) name.toList ≤ 1) :
    ∀ property ∈ Property.embedded, ¬token property <:+: (strip name).1.toList := by
  intro property hProperty
  have hNodup : Property.embedded.Nodup := by decide
  have hCount := hUnglued.occurrences_stripFrom hName hNodup (List.Subset.refl _) hProperty
  rw [if_pos hProperty, Nat.sub_eq_zero_of_le (hOnce property hProperty)] at hCount
  rw [toList_strip, ← Text.occurrences_eq_zero_iff (token_ne_nil property), hCount]

theorem keywords_detected {name : String} (h : Text.normalize name = name) : Detected name := by
  have hName : Text.Spaced name.toList := (Text.normalize_eq_self_iff name).mp h
  constructor
  case found =>
    intro property hProperty hHere
    exact mem_stripFrom_of_isInfix hName hProperty hHere
  case found_exactly =>
    intro hUnglued
    exact hUnglued.stripFrom_found hName (by decide) (List.Subset.refl _)
  case gone =>
    intro hUnglued hOnce
    exact hUnglued.absent_strip hName hOnce
  case stable =>
    intro hUnglued hOnce
    exact strip_of_absent (hUnglued.absent_strip hName hOnce)

/-- A keyword of each kind in reverse order, one of them behind a parameter's type, and one that is
only the end of a word. -/
theorem mixed_keywords_detected :
    let name := "at(int const& i, Tconst x) volatile override"
    Text.normalize name = name ∧ Unglued name.toList ∧
      (∀ property ∈ Property.embedded, Text.occurrences (token property) name.toList ≤ 1) ∧
      strip name = ("at(int & i, Tconst x)", [.override, .volatile, .const]) ∧ Detected name :=
  ⟨by decide +kernel, by decide +kernel, by decide +kernel, by decide +kernel,
    keywords_detected (by decide +kernel)⟩

/-- Cutting a keyword out can put a space in front of another one that had none. -/
example : strip "f overrideconst" = ("f", [.override, .const]) := by decide +kernel

/-- A declarator with qualifiers behind it, in the order in which they are given. -/
def trailed (base : String) (trailing : List Property) : String :=
  base ++ String.join (trailing.map fun property => " " ++ property.keyword)

theorem toList_trailed (base : String) (trailing : List Property) :
    (trailed base trailing).toList = base.toList ++ trailing.flatMap token := by
  have hToken (property : Property) : (" " ++ property.keyword).toList = token property := by
    rw [String.toList_append]
    rfl
  rw [trailed, String.toList_append, String.toList_join, List.flatMap_map]
  simp only [hToken]

theorem occurrences_flatMap_token (property : Property) (trailing : List Property) :
    Text.occurrences (token property) (trailing.flatMap token) = trailing.count property := by
  induction trailing with
  | nil => rfl
  | cons first trailing ih =>
    rw [List.flatMap_cons, token, token, List.cons_append, Text.occurrences_space_cons,
      Text.occurrences_append_of_not_mem first.space_not_mem_keyword, ← token, ih, List.count_cons,
      Nat.add_comm]
    simp only [Property.keyword_isPrefix_append_iff, beq_iff_eq, eq_comm (a := property)]

theorem occurrences_append_flatMap_token (property : Property) (base : List Char)
    (trailing : List Property) :
    Text.occurrences (token property) (base ++ trailing.flatMap token) =
      Text.occurrences (token property) base + trailing.count property := by
  rw [← occurrences_flatMap_token]
  cases trailing with
  | nil => rw [List.flatMap_nil, List.append_nil, Text.occurrences, Nat.add_zero]
  | cons first trailing => exact Text.occurrences_append_space property.space_not_mem_keyword _ _

theorem spaced_append_flatMap_token {base : List Char} (hBase : base ≠ [])
    (hSpaced : Text.Spaced base) (trailing : List Property) :
    Text.Spaced (base ++ trailing.flatMap token) := by
  induction trailing generalizing base with
  | nil => rwa [List.flatMap_nil, List.append_nil]
  | cons first trailing ih =>
    have hKeyword : Text.Spaced first.keyword.toList :=
      Text.spaced_of_no_blank (by cases first <;> decide)
    rw [List.flatMap_cons, ← List.append_assoc]
    exact ih (List.append_ne_nil_of_left_ne_nil hBase _)
      (hSpaced.append_space hKeyword hBase first.keyword_ne_nil)

theorem afterSpace_flatMap_token (trailing : List Property) :
    Text.afterSpace (trailing.flatMap token) = trailing.flatMap token := by
  cases trailing <;> rfl

/-- A pass takes its keyword from among the trailing ones, and the others move up. -/
theorem cut?_trailed {base : List Char} (hBase : base ≠ []) (hSpaced : Text.Spaced base)
    {property : Property} {trailing : List Property} (hNodup : trailing.Nodup)
    (h : property ∈ trailing) :
    cut? property (base ++ trailing.flatMap token) =
      some (base ++ (trailing.filter (· != property)).flatMap token) := by
  rw [← hNodup.erase_eq_filter]
  obtain ⟨earlier, later, rfl⟩ := List.append_of_mem h
  obtain ⟨hOther, -⟩ := List.nodup_cons.mp (List.perm_middle.nodup_iff.mp hNodup)
  have hErase : (earlier ++ property :: later).erase property = earlier ++ later := by
    rw [List.erase_append_right _ fun h => hOther (List.mem_append_left later h),
      List.erase_cons_head]
  have hLast : ¬token property <:+: (token property ++ later.flatMap token).tail := by
    rw [← Text.occurrences_eq_zero_iff (token_ne_nil property), token, List.cons_append,
      List.tail_cons, Text.occurrences_append_of_not_mem property.space_not_mem_keyword, ← token,
      occurrences_flatMap_token]
    exact List.count_eq_zero.mpr fun h => hOther (List.mem_append_right earlier h)
  have hName := spaced_append_flatMap_token hBase hSpaced (earlier ++ property :: later)
  rw [List.flatMap_append, List.flatMap_cons, ← List.append_assoc] at hName ⊢
  rw [cut?, splitLast?_append (token_ne_nil property) hLast, Option.map_some,
    Text.normalizeChars_cut hName, afterSpace_flatMap_token, hErase, List.flatMap_append,
    List.append_assoc]

theorem stripFrom_trailed {base : List Char} (hBase : base ≠ []) (hSpaced : Text.Spaced base)
    {trailing properties : List Property} (hTrailing : trailing.Nodup) (hNodup : properties.Nodup)
    (hInner : ∀ property ∈ properties, token property <:+: base → property ∈ trailing) :
    stripFrom (base ++ trailing.flatMap token) properties =
      (base ++ (trailing.filter (· ∉ properties)).flatMap token,
        properties.filter (· ∈ trailing)) := by
  induction properties generalizing trailing with
  | nil => simp [stripFrom]
  | cons first properties ih =>
    obtain ⟨hNew, hNodup⟩ := List.nodup_cons.mp hNodup
    obtain ⟨hFirst, hInner⟩ := List.forall_mem_cons.mp hInner
    have hOther : ∀ p ∈ properties, p ≠ first := fun p hp hEq => hNew (hEq ▸ hp)
    by_cases hMem : first ∈ trailing
    · have hLeft : ∀ p ∈ properties, token p <:+: base → p ∈ trailing.filter (· != first) := by
        intro p hp hHere
        exact List.mem_filter.mpr ⟨hInner p hp hHere, by simpa using hOther p hp⟩
      have hRest : (trailing.filter (· != first)).filter (· ∉ properties) =
          trailing.filter (· ∉ first :: properties) := by
        rw [List.filter_filter]
        exact List.filter_congr fun p _ => by by_cases hEq : p = first <;> simp [hEq]
      have hFound : properties.filter (· ∈ trailing.filter (· != first)) =
          properties.filter (· ∈ trailing) :=
        List.filter_congr fun p hp => by simp [hOther p hp]
      rw [stripFrom_cons_of_cut? (cut?_trailed hBase hSpaced hTrailing hMem),
        ih (hTrailing.filter _) hNodup hLeft, List.filter_cons_of_pos (by simpa using hMem), hRest,
        hFound]
    · have hAbsent : ¬token first <:+: base ++ trailing.flatMap token := by
        rw [← Text.occurrences_eq_zero_iff (token_ne_nil first), occurrences_append_flatMap_token,
          (Text.occurrences_eq_zero_iff (token_ne_nil first) base).mpr fun h => hMem (hFirst h),
          List.count_eq_zero.mpr hMem]
      have hRest : trailing.filter (· ∉ properties) =
          trailing.filter (· ∉ first :: properties) := by
        apply List.filter_congr
        intro p hp
        have hEq : p ≠ first := fun hEq => hMem (hEq ▸ hp)
        simp [hEq]
      rw [stripFrom_cons_of_not_isInfix hAbsent, ih hTrailing hNodup hInner,
        List.filter_cons_of_neg (by simpa using hMem), hRest]

/-- Qualifiers that trail a declarator are recovered in whatever order they stand, and the
declarator keeps those that it holds itself. -/
theorem strip_trailed {base : String} {trailing : List Property} (hBase : base ≠ "")
    (hSpacing : Text.normalize base = base) (hNodup : trailing.Nodup)
    (hTrailing : trailing ⊆ Property.embedded)
    (hInner : ∀ property ∈ Property.embedded, token property <:+: base.toList →
      property ∈ trailing) :
    strip (trailed base trailing) = (base, Property.embedded.filter (· ∈ trailing)) := by
  have hSpaced := (Text.normalize_eq_self_iff base).mp hSpacing
  have hNone : trailing.filter (· ∉ Property.embedded) = [] :=
    List.filter_eq_nil_iff.mpr fun property h => by simpa using hTrailing h
  rw [strip_eq, toList_trailed,
    stripFrom_trailed (by simpa using hBase) hSpaced hNodup (by decide) hInner, hNone,
    List.flatMap_nil, List.append_nil, String.ofList_toList]

/-- A parameter's qualifier and a parameter whose name starts like it stay, since the same qualifier
also trails the declarator. -/
theorem parameter_qualifier_kept :
    let base := "f(int a, const int constant)"
    let trailing : List Property := [.const, .override]
    base ≠ "" ∧ Text.normalize base = base ∧ trailing.Nodup ∧ trailing ⊆ Property.embedded ∧
      (∀ property ∈ Property.embedded, token property <:+: base.toList → property ∈ trailing) ∧
      trailed base trailing = "f(int a, const int constant) const override" ∧
      strip (trailed base trailing) = (base, [.override, .const]) :=
  ⟨by decide, by decide +kernel, by decide, by decide, by decide +kernel, by decide +kernel,
    strip_trailed (by decide) (by decide +kernel) (by decide) (by decide) (by decide +kernel)⟩

end FunctionIndex.Qualifier
