import FunctionIndex.Proofs.Definition.Spacing
import FunctionIndex.Proofs.Text.Occurrences

/-! # Cutting qualifiers out

A pass takes one occurrence of its own keyword out of a name. It keeps the occurrences of the other
keywords, and it makes a new one only of a keyword that stands directly behind the one it takes.
-/
namespace FunctionIndex

namespace Property
set_option autoImplicit false

theorem space_not_mem_keyword (property : Property) : ' ' ∉ property.keyword.toList := by
  cases property <;> decide

theorem keyword_ne_nil (property : Property) : property.keyword.toList ≠ [] := by
  cases property <;> decide

/-- No keyword is the start of another one. -/
theorem eq_of_keyword_isPrefix {p q : Property} (h : p.keyword.toList <+: q.keyword.toList) :
    p = q := by
  have hAll : ∀ p ∈ all, ∀ q ∈ all, p.keyword.toList <+: q.keyword.toList → p = q := by decide
  exact hAll p p.mem_all q q.mem_all h

theorem keyword_isPrefix_append_iff (p q : Property) (after : List Char) :
    q.keyword.toList <+: p.keyword.toList ++ after ↔ q = p := by
  constructor
  · intro h
    rcases List.prefix_or_prefix_of_prefix h (List.prefix_append _ after) with h | h
    · exact eq_of_keyword_isPrefix h
    · exact (eq_of_keyword_isPrefix h).symm
  · rintro rfl
    exact List.prefix_append _ after

end Property

namespace Text
set_option autoImplicit false

theorem occurrences_append_afterSpace {body : List Char} (hBody : body ≠ []) (hSpace : ' ' ∉ body)
    (before after : List Char) :
    occurrences (' ' :: body) (before ++ afterSpace after) =
      occurrences (' ' :: body) before +
        ((if body <+: after then 1 else 0) + occurrences (' ' :: body) after) := by
  cases after with
  | nil => simp [afterSpace, occurrences, hBody]
  | cons c rest =>
    rw [afterSpace]
    split
    · rename_i hc
      subst hc
      have hNot : ¬body <+: ' ' :: rest := by
        rw [← List.nil_append (' ' :: rest), prefix_append_space_iff hSpace]
        exact mt List.prefix_nil.mp hBody
      rw [occurrences_append_space hSpace, if_neg hNot, Nat.zero_add]
    · rw [occurrences_append_space hSpace, occurrences_space_cons]

end Text

namespace Qualifier
set_option autoImplicit false

theorem token_ne_nil (property : Property) : token property ≠ [] := List.cons_ne_nil _ _

theorem splitLast?_eq_none_iff {word : List Char} (hWord : word ≠ []) (text : List Char) :
    splitLast? word text = none ↔ ¬word <:+: text := by
  induction text with
  | nil => exact iff_of_true rfl fun h => hWord (List.eq_nil_of_infix_nil h)
  | cons c rest ih =>
    rw [splitLast?, List.infix_cons_iff, not_or, ← ih]
    cases splitLast? word rest <;> simp

theorem eq_of_splitLast? {word text before after : List Char}
    (h : splitLast? word text = some (before, after)) : text = before ++ (word ++ after) := by
  induction text generalizing before with
  | nil => cases h
  | cons c rest ih =>
    rw [splitLast?] at h
    cases hRest : splitLast? word rest with
    | some parts =>
      rw [hRest] at h
      cases h
      exact congrArg (c :: ·) (ih hRest)
    | none =>
      rw [hRest] at h
      obtain ⟨hHere, hParts⟩ := Option.ite_none_right_eq_some.mp h
      obtain ⟨tail, hTail⟩ := List.isPrefixOf_iff_prefix.mp hHere
      rw [← hTail, List.drop_left] at hParts
      cases hParts
      exact hTail.symm

/-- The last occurrence is one behind whose first character there is no other. -/
theorem splitLast?_append {word after : List Char} (hWord : word ≠ [])
    (hLast : ¬word <:+: (word ++ after).tail) (before : List Char) :
    splitLast? word (before ++ (word ++ after)) = some (before, after) := by
  induction before with
  | nil =>
    have hHere : word.isPrefixOf (word ++ after) = true :=
      List.isPrefixOf_iff_prefix.mpr (List.prefix_append word after)
    cases hText : word ++ after with
    | nil => exact absurd (List.append_eq_nil_iff.mp hText).1 hWord
    | cons c rest =>
      rw [hText, List.tail_cons, ← splitLast?_eq_none_iff hWord] at hLast
      rw [List.nil_append, splitLast?, hLast, ← hText, if_pos hHere, List.drop_left]
  | cons c before ih => rw [List.cons_append, splitLast?, ih]

theorem cut?_eq_none_iff (property : Property) (name : List Char) :
    cut? property name = none ↔ ¬token property <:+: name := by
  rw [cut?, Option.map_eq_none_iff, splitLast?_eq_none_iff (token_ne_nil property)]

/-- A pass leaves the two sides of its keyword, with one space between them. -/
theorem sides_of_cut? {property : Property} {name rest : List Char} (hName : Text.Spaced name)
    (h : cut? property name = some rest) :
    ∃ before after, name = before ++ ' ' :: (property.keyword.toList ++ after) ∧
      rest = before ++ Text.afterSpace after := by
  obtain ⟨⟨before, after⟩, hParts, hRest⟩ := Option.map_eq_some_iff.mp h
  obtain rfl : name = before ++ ' ' :: (property.keyword.toList ++ after) := eq_of_splitLast? hParts
  exact ⟨before, after, rfl, hRest ▸ Text.normalizeChars_cut hName⟩

/-- How often a word stands behind a space before and after a pass. -/
theorem occurrences_of_cut? {property : Property} {name rest : List Char}
    (hName : Text.Spaced name) (h : cut? property name = some rest) :
    ∃ before after, token property ++ after <:+ name ∧ ∀ body : List Char, body ≠ [] → ' ' ∉ body →
      Text.occurrences (' ' :: body) name = Text.occurrences (' ' :: body) before +
          ((if body <+: property.keyword.toList ++ after then 1 else 0) +
            Text.occurrences (' ' :: body) after) ∧
        Text.occurrences (' ' :: body) rest = Text.occurrences (' ' :: body) before +
          ((if body <+: after then 1 else 0) + Text.occurrences (' ' :: body) after) := by
  obtain ⟨before, after, rfl, rfl⟩ := sides_of_cut? hName h
  refine ⟨before, after, List.suffix_append _ _, fun body hBody hSpace => ⟨?_, ?_⟩⟩
  · rw [Text.occurrences_append_space hSpace, Text.occurrences_space_cons,
      Text.occurrences_append_of_not_mem property.space_not_mem_keyword]
  · exact Text.occurrences_append_afterSpace hBody hSpace before after

theorem occurrences_token_of_cut? {property : Property} {name rest : List Char}
    (hName : Text.Spaced name) (h : cut? property name = some rest) :
    ∃ after, token property ++ after <:+ name ∧ ∀ other : Property,
      Text.occurrences (token other) rest + (if other = property then 1 else 0) =
        Text.occurrences (token other) name +
          (if other.keyword.toList <+: after then 1 else 0) := by
  obtain ⟨before, after, hAfter, hCount⟩ := occurrences_of_cut? hName h
  refine ⟨after, hAfter, fun other => ?_⟩
  obtain ⟨hOld, hNew⟩ := hCount _ other.keyword_ne_nil other.space_not_mem_keyword
  simp only [Property.keyword_isPrefix_append_iff] at hOld
  rw [token, hOld, hNew]
  omega

/-- In no place is a keyword behind a space followed directly by a keyword. -/
def Unglued (name : List Char) : Prop :=
  ∀ p ∈ Property.embedded, ∀ q ∈ Property.embedded, ¬token p ++ q.keyword.toList <:+: name

theorem Unglued.not_prefix {property : Property} {name after : List Char} (h : Unglued name)
    (hProperty : property ∈ Property.embedded) (hAfter : token property ++ after <:+ name)
    {other : Property} (hOther : other ∈ Property.embedded) :
    ¬other.keyword.toList <+: after := by
  intro hPrefix
  have hGlued : token property ++ other.keyword.toList <+: token property ++ after :=
    (List.prefix_append_right_inj _).mpr hPrefix
  exact h property hProperty other hOther (hGlued.isInfix.trans hAfter.isInfix)

/-- Where no keywords are glued together a pass takes one occurrence of its own keyword and leaves
those of the others. -/
theorem Unglued.occurrences_of_cut? {property : Property} {name rest : List Char}
    (hUnglued : Unglued name) (hName : Text.Spaced name) (h : cut? property name = some rest)
    (hProperty : property ∈ Property.embedded) {other : Property}
    (hOther : other ∈ Property.embedded) :
    Text.occurrences (token other) rest + (if other = property then 1 else 0) =
      Text.occurrences (token other) name := by
  obtain ⟨after, hAfter, hCount⟩ := occurrences_token_of_cut? hName h
  rw [hCount, if_neg (hUnglued.not_prefix hProperty hAfter hOther), Nat.add_zero]

theorem Unglued.of_cut? {property : Property} {name rest : List Char} (hUnglued : Unglued name)
    (hName : Text.Spaced name) (h : cut? property name = some rest)
    (hProperty : property ∈ Property.embedded) : Unglued rest := by
  intro p hp q hq
  have hWord : ' ' :: (p.keyword.toList ++ q.keyword.toList) ≠ [] := List.cons_ne_nil _ _
  obtain ⟨before, after, hAfter, hCount⟩ := Qualifier.occurrences_of_cut? hName h
  obtain ⟨hOld, hNew⟩ := hCount (p.keyword.toList ++ q.keyword.toList)
    (List.append_ne_nil_of_left_ne_nil p.keyword_ne_nil _)
    (by simp [Property.space_not_mem_keyword])
  have hZero := (Text.occurrences_eq_zero_iff hWord name).mpr (hUnglued p hp q hq)
  have hNot : ¬p.keyword.toList ++ q.keyword.toList <+: after := by
    intro hPrefix
    exact hUnglued.not_prefix hProperty hAfter hp ((List.prefix_append _ _).trans hPrefix)
  rw [if_neg hNot] at hNew
  exact (Text.occurrences_eq_zero_iff hWord rest).mp (by omega)

theorem stripFrom_cons_of_cut? {first : Property} {name rest : List Char}
    (h : cut? first name = some rest) (properties : List Property) :
    stripFrom name (first :: properties) =
      ((stripFrom rest properties).1, first :: (stripFrom rest properties).2) := by
  rw [stripFrom, h]

theorem stripFrom_cons_of_not_isInfix {first : Property} {name : List Char}
    (h : ¬token first <:+: name) (properties : List Property) :
    stripFrom name (first :: properties) = stripFrom name properties := by
  rw [stripFrom, (cut?_eq_none_iff first name).mpr h]

theorem exists_cut?_of_isInfix {property : Property} {name : List Char}
    (h : token property <:+: name) : ∃ rest, cut? property name = some rest := by
  apply Option.ne_none_iff_exists'.mp
  exact fun hNone => (cut?_eq_none_iff property name).mp hNone h

theorem stripFrom_of_absent {name : List Char} {properties : List Property}
    (h : ∀ property ∈ properties, ¬token property <:+: name) :
    stripFrom name properties = (name, []) := by
  induction properties with
  | nil => rfl
  | cons first properties ih =>
    obtain ⟨hFirst, hRest⟩ := List.forall_mem_cons.mp h
    rw [stripFrom_cons_of_not_isInfix hFirst, ih hRest]

/-- No pass hides the keyword of a later one. -/
theorem mem_stripFrom_of_isInfix {name : List Char} (hName : Text.Spaced name)
    {properties : List Property} {property : Property} (hProperty : property ∈ properties)
    (h : token property <:+: name) : property ∈ (stripFrom name properties).2 := by
  induction properties generalizing name with
  | nil => cases hProperty
  | cons first properties ih =>
    by_cases hHere : token first <:+: name
    · obtain ⟨rest, hCut⟩ := exists_cut?_of_isInfix hHere
      rw [stripFrom_cons_of_cut? hCut]
      by_cases hFirst : property = first
      · exact hFirst ▸ List.mem_cons_self
      · apply List.mem_cons_of_mem
        apply ih (spaced_of_cut? hCut) (List.mem_of_ne_of_mem hFirst hProperty)
        obtain ⟨after, -, hCount⟩ := occurrences_token_of_cut? hName hCut
        have hKept := hCount property
        rw [if_neg hFirst] at hKept
        rw [← Text.occurrences_pos_iff (token_ne_nil property)] at h ⊢
        omega
    · have hFirst : property ≠ first := by
        rintro rfl
        exact hHere h
      rw [stripFrom_cons_of_not_isInfix hHere]
      exact ih hName (List.mem_of_ne_of_mem hFirst hProperty) h

/-- The passes find exactly the keywords that stand in the name. -/
theorem Unglued.stripFrom_found {name : List Char} (hUnglued : Unglued name)
    (hName : Text.Spaced name) {properties : List Property} (hNodup : properties.Nodup)
    (hProperties : properties ⊆ Property.embedded) :
    (stripFrom name properties).2 = properties.filter (token · <:+: name) := by
  induction properties generalizing name with
  | nil => rfl
  | cons first properties ih =>
    obtain ⟨hNew, hNodup⟩ := List.nodup_cons.mp hNodup
    obtain ⟨hFirst, hRest⟩ := List.cons_subset.mp hProperties
    by_cases hHere : token first <:+: name
    · obtain ⟨rest, hCut⟩ := exists_cut?_of_isInfix hHere
      have hSame : ∀ p ∈ properties, token p <:+: rest ↔ token p <:+: name := by
        intro p hp
        have hOther : p ≠ first := fun hEq => hNew (hEq ▸ hp)
        have hCount := hUnglued.occurrences_of_cut? hName hCut hFirst (hRest hp)
        rw [if_neg hOther, Nat.add_zero] at hCount
        rw [← Text.occurrences_pos_iff (token_ne_nil p), hCount,
          Text.occurrences_pos_iff (token_ne_nil p)]
      rw [stripFrom_cons_of_cut? hCut, List.filter_cons_of_pos (by simpa using hHere),
        ih (hUnglued.of_cut? hName hCut hFirst) (spaced_of_cut? hCut) hNodup hRest]
      exact congrArg (first :: ·) (List.filter_congr fun p hp => decide_eq_decide.mpr (hSame p hp))
    · rw [stripFrom_cons_of_not_isInfix hHere, List.filter_cons_of_neg (by simpa using hHere)]
      exact ih hUnglued hName hNodup hRest

/-- The passes take one occurrence of each of their keywords that stands in the name. -/
theorem Unglued.occurrences_stripFrom {name : List Char} (hUnglued : Unglued name)
    (hName : Text.Spaced name) {properties : List Property} (hNodup : properties.Nodup)
    (hProperties : properties ⊆ Property.embedded) {other : Property}
    (hOther : other ∈ Property.embedded) :
    Text.occurrences (token other) (stripFrom name properties).1 =
      Text.occurrences (token other) name - (if other ∈ properties then 1 else 0) := by
  induction properties generalizing name with
  | nil => rfl
  | cons first properties ih =>
    obtain ⟨hNew, hNodup⟩ := List.nodup_cons.mp hNodup
    obtain ⟨hFirst, hRest⟩ := List.cons_subset.mp hProperties
    by_cases hHere : token first <:+: name
    · obtain ⟨rest, hCut⟩ := exists_cut?_of_isInfix hHere
      have hCount := hUnglued.occurrences_of_cut? hName hCut hFirst hOther
      rw [stripFrom_cons_of_cut? hCut,
        ih (hUnglued.of_cut? hName hCut hFirst) (spaced_of_cut? hCut) hNodup hRest, ← hCount]
      by_cases hEq : other = first
      · simp [hEq, hNew]
      · simp [hEq]
    · rw [stripFrom_cons_of_not_isInfix hHere, ih hUnglued hName hNodup hRest]
      by_cases hEq : other = first
      · have hZero := (Text.occurrences_eq_zero_iff (token_ne_nil first) name).mpr hHere
        rw [hEq, hZero, Nat.zero_sub, Nat.zero_sub]
      · simp only [List.mem_cons, hEq, false_or]

end Qualifier
end FunctionIndex
