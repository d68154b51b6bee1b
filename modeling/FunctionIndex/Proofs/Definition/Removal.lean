import FunctionIndex.Proofs.Definition.Properties
import FunctionIndex.Proofs.Definition.Stripping
import Mathlib.Algebra.Ring.Nat

/-! # What stripping removes

Of the characters that are not blank, stripping takes out the keywords that it reports, each in one
piece, and nothing else. A name in which it finds none stays as it is; any other name comes out in
normal spacing.
-/
namespace FunctionIndex

namespace Text
set_option autoImplicit false

/-- Words are taken out of a text one after the other, each of them in one piece. -/
inductive Without : List (List Char) → List Char → List Char → Prop
  | none (text : List Char) : Without [] text text
  | next {word before after rest : List Char} {words : List (List Char)}
      (hRest : Without words (before ++ after) rest) :
      Without (word :: words) (before ++ (word ++ after)) rest

theorem Without.length_eq {words : List (List Char)} {text rest : List Char}
    (h : Without words text rest) :
    text.length = rest.length + (words.map List.length).sum := by
  induction h with
  | none => rfl
  | next _ ih =>
    rw [List.length_append] at ih
    rw [List.length_append, List.length_append, List.map_cons, List.sum_cons]
    omega

end Text

namespace Property
set_option autoImplicit false

theorem shown_keyword (property : Property) :
    Text.shown property.keyword.toList = property.keyword.toList := by
  cases property <;> decide

end Property

namespace Qualifier
set_option autoImplicit false

/-- A pass takes its keyword, and the spacing that it changes is blank. -/
theorem shown_of_cut? {property : Property} {name rest : List Char}
    (h : cut? property name = some rest) :
    ∃ before after, Text.shown name = before ++ (property.keyword.toList ++ after) ∧
      Text.shown rest = before ++ after := by
  obtain ⟨⟨before, after⟩, hParts, hRest⟩ := Option.map_eq_some_iff.mp h
  obtain rfl : name = before ++ (token property ++ after) := eq_of_splitLast? hParts
  obtain rfl : Text.normalizeChars (before ++ ' ' :: after) = rest := hRest
  refine ⟨Text.shown before, Text.shown after, ?_, ?_⟩
  · rw [Text.shown_append, Text.shown_append, token, Text.shown_cons_blank Text.isBlank_space,
      property.shown_keyword]
  · rw [Text.shown_normalizeChars, Text.shown_append, Text.shown_cons_blank Text.isBlank_space]

theorem stripFrom_without (name : List Char) (properties : List Property) :
    Text.Without ((stripFrom name properties).2.map (·.keyword.toList)) (Text.shown name)
      (Text.shown (stripFrom name properties).1) := by
  induction properties generalizing name with
  | nil => exact .none _
  | cons first properties ih =>
    cases hCut : cut? first name with
    | none =>
      rw [stripFrom_cons_of_not_isInfix ((cut?_eq_none_iff first name).mp hCut)]
      exact ih name
    | some rest =>
      rw [stripFrom_cons_of_cut? hCut, List.map_cons]
      obtain ⟨before, after, hName, hRest⟩ := shown_of_cut? hCut
      rw [hName]
      exact .next (hRest ▸ ih rest)

/-- Nothing is found in a name exactly if no keyword stands behind a space in it: the first pass that
finds its keyword sees the name as it was. -/
theorem stripFrom_found_eq_nil_iff (name : List Char) (properties : List Property) :
    (stripFrom name properties).2 = [] ↔ ∀ property ∈ properties, ¬token property <:+: name := by
  constructor
  · intro hNone
    induction properties with
    | nil => exact fun _ hProperty => absurd hProperty List.not_mem_nil
    | cons first properties ih =>
      cases hCut : cut? first name with
      | none =>
        have hFirst := (cut?_eq_none_iff first name).mp hCut
        rw [stripFrom_cons_of_not_isInfix hFirst] at hNone
        exact List.forall_mem_cons.mpr ⟨hFirst, ih hNone⟩
      | some rest =>
        rw [stripFrom_cons_of_cut? hCut] at hNone
        exact absurd hNone (List.cons_ne_nil _ _)
  · intro hAbsent
    rw [stripFrom_of_absent hAbsent]

theorem spaced_stripFrom_of_found {name : List Char} {properties : List Property}
    (h : (stripFrom name properties).2 ≠ []) : Text.Spaced (stripFrom name properties).1 := by
  induction properties with
  | nil => exact absurd rfl h
  | cons first properties ih =>
    cases hCut : cut? first name with
    | none =>
      rw [stripFrom_cons_of_not_isInfix ((cut?_eq_none_iff first name).mp hCut)] at h ⊢
      exact ih h
    | some rest =>
      rw [stripFrom_cons_of_cut? hCut]
      exact spaced_stripFrom (spaced_of_cut? hCut) properties

/-- What stripping takes out of a name, and what it leaves as it is. -/
structure Removed (name : String) : Prop where
  in_order : (strip name).2.Sublist Property.embedded
  without : Text.Without ((strip name).2.map (·.keyword.toList)) (Text.shown name.toList)
    (Text.shown (strip name).1.toList)
  length_eq : (Text.shown name.toList).length =
    (Text.shown (strip name).1.toList).length + ((strip name).2.map (·.keyword.length)).sum
  none_iff : (strip name).2 = [] ↔ ∀ property ∈ Property.embedded, ¬token property <:+: name.toList
  unchanged : (strip name).2 = [] → (strip name).1 = name
  normal_iff : Text.normalize (strip name).1 = (strip name).1 ↔
    Text.normalize name = name ∨ (strip name).2 ≠ []

theorem strip_without (name : String) :
    Text.Without ((strip name).2.map (·.keyword.toList)) (Text.shown name.toList)
      (Text.shown (strip name).1.toList) := by
  rw [toList_strip]
  exact stripFrom_without name.toList Property.embedded

theorem strip_found_eq_nil_iff (name : String) :
    (strip name).2 = [] ↔ ∀ property ∈ Property.embedded, ¬token property <:+: name.toList :=
  stripFrom_found_eq_nil_iff name.toList Property.embedded

theorem strip_of_found_eq_nil {name : String} (h : (strip name).2 = []) : (strip name).1 = name :=
  congrArg Prod.fst (strip_of_absent ((strip_found_eq_nil_iff name).mp h))

theorem keywords_removed (name : String) : Removed name where
  in_order := strip_sublist name
  without := strip_without name
  length_eq := by
    rw [(strip_without name).length_eq, List.map_map]
    rfl
  none_iff := strip_found_eq_nil_iff name
  unchanged := strip_of_found_eq_nil
  normal_iff := by
    constructor
    · intro hRest
      by_cases hNone : (strip name).2 = []
      · rw [strip_of_found_eq_nil hNone] at hRest
        exact .inl hRest
      · exact .inr hNone
    · rintro (hName | hFound)
      · rw [Text.normalize_eq_self_iff] at hName ⊢
        exact spaced_strip hName
      · rw [Text.normalize_eq_self_iff, toList_strip]
        exact spaced_stripFrom_of_found hFound

/-- Blanks other than spaces and a letter behind a keyword make no difference. -/
example : strip "f(\u3000 const\u00e9 x)  override\t" = ("f( \u00e9 x)", [.override, .const]) := by
  decide +kernel

end Qualifier
end FunctionIndex
