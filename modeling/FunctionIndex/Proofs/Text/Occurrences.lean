import Mathlib.Data.List.Infix

/-! # Occurrences of a word

How often a word stands in a text. A word whose only space is its first character never reaches over
another space, so the occurrences on the two sides of a space are counted apart.
-/
namespace FunctionIndex.Text
set_option autoImplicit false

/-- The number of places where `word` stands in a text. -/
def occurrences (word : List Char) : List Char → Nat
  | [] => 0
  | c :: rest => (if word <+: c :: rest then 1 else 0) + occurrences word rest

theorem occurrences_eq_zero_iff {word : List Char} (hWord : word ≠ []) (text : List Char) :
    occurrences word text = 0 ↔ ¬word <:+: text := by
  induction text with
  | nil => exact iff_of_true rfl fun h => hWord (List.eq_nil_of_infix_nil h)
  | cons c rest ih =>
    rw [occurrences, List.infix_cons_iff, not_or, ← ih]
    split <;> simp [*]

theorem occurrences_pos_iff {word : List Char} (hWord : word ≠ []) (text : List Char) :
    0 < occurrences word text ↔ word <:+: text := by
  rw [Nat.pos_iff_ne_zero, Ne, occurrences_eq_zero_iff hWord, not_not]

/-- A word without a space ends before the next space. -/
theorem prefix_append_space_iff {body : List Char} (hBody : ' ' ∉ body) (first second : List Char) :
    body <+: first ++ ' ' :: second ↔ body <+: first := by
  induction first generalizing body with
  | nil =>
    cases body with
    | nil => exact iff_of_true List.nil_prefix List.nil_prefix
    | cons b body =>
      have hSpace : b ≠ ' ' := fun h => hBody (h ▸ List.mem_cons_self)
      simp [List.cons_prefix_cons, hSpace]
  | cons c first ih =>
    cases body with
    | nil => exact iff_of_true List.nil_prefix List.nil_prefix
    | cons b body =>
      rw [List.cons_append, List.cons_prefix_cons, List.cons_prefix_cons,
        ih fun h => hBody (List.mem_cons_of_mem b h)]

theorem occurrences_append_space {body : List Char} (hBody : ' ' ∉ body)
    (first second : List Char) :
    occurrences (' ' :: body) (first ++ ' ' :: second) =
      occurrences (' ' :: body) first + occurrences (' ' :: body) (' ' :: second) := by
  induction first with
  | nil => rw [List.nil_append, occurrences, Nat.zero_add]
  | cons c first ih =>
    have hHere : ' ' :: body <+: c :: (first ++ ' ' :: second) ↔ ' ' :: body <+: c :: first := by
      rw [List.cons_prefix_cons, List.cons_prefix_cons, prefix_append_space_iff hBody]
    rw [List.cons_append, occurrences, occurrences, ih, Nat.add_assoc]
    simp only [hHere]

theorem occurrences_space_cons (body text : List Char) :
    occurrences (' ' :: body) (' ' :: text) =
      (if body <+: text then 1 else 0) + occurrences (' ' :: body) text := by
  rw [occurrences]
  simp only [List.cons_prefix_cons, true_and]

theorem occurrences_append_of_not_mem {first : List Char} (hFirst : ' ' ∉ first)
    (body second : List Char) :
    occurrences (' ' :: body) (first ++ second) = occurrences (' ' :: body) second := by
  induction first with
  | nil => rfl
  | cons c first ih =>
    obtain ⟨hSpace, hRest⟩ := not_or.mp (mt List.mem_cons.mpr hFirst)
    have hNot : ¬( ' ' :: body <+: c :: (first ++ second)) := by
      intro h
      exact hSpace (List.cons_prefix_cons.mp h).1
    rw [List.cons_append, occurrences, ih hRest, if_neg hNot, Nat.zero_add]

end FunctionIndex.Text
