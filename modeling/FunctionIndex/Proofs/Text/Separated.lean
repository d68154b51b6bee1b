import Mathlib.Data.List.Basic

/-! # Separated lists

Parts joined with a separator between them, parts that are each closed by one, and where such lists
come apart again.
-/
namespace FunctionIndex.Text
set_option autoImplicit false

theorem intercalate_map_cons {α β : Type} (separator : β) (shown : α → List β) (first : α)
    (rest : List α) :
    [separator].intercalate ((first :: rest).map shown) =
      shown first ++ rest.flatMap fun item => separator :: shown item := by
  induction rest generalizing first with
  | nil => rw [List.map_singleton, List.intercalate_singleton, List.flatMap_nil, List.append_nil]
  | cons next rest ih =>
    rw [List.map_cons, List.map_cons, List.intercalate_cons_cons, ← List.map_cons, ih,
      List.flatMap_cons, List.append_assoc, List.singleton_append, List.cons_append]

theorem intercalate_append {α : Type} (separator : α) {first second : List (List α)}
    (hFirst : first ≠ []) (hSecond : second ≠ []) :
    [separator].intercalate (first ++ second) =
      [separator].intercalate first ++ separator :: [separator].intercalate second := by
  induction first with
  | nil => exact absurd rfl hFirst
  | cons part parts ih =>
    cases parts with
    | nil =>
      rw [List.singleton_append, List.intercalate_cons_of_ne_nil hSecond,
        List.intercalate_singleton, List.append_assoc, List.singleton_append]
    | cons next parts =>
      rw [List.cons_append, List.cons_append, List.intercalate_cons_cons, ← List.cons_append,
        ih (List.cons_ne_nil _ _), List.intercalate_cons_cons]
      simp only [List.append_assoc]

theorem intercalate_concat {α : Type} (separator : α) (first last : List α)
    (parts : List (List α)) :
    [separator].intercalate (first :: parts ++ [last]) =
      [separator].intercalate (first :: parts) ++ separator :: last := by
  rw [intercalate_append separator (List.cons_ne_nil _ _) (List.cons_ne_nil _ _),
    List.intercalate_singleton]

/-- A part that is not the only one follows a separator. -/
theorem exists_eq_append_last {α : Type} [BEq α] [LawfulBEq α] {separator : α}
    {text last : List α} (hLast : (text.splitOn separator).getLast? = some last)
    (hOther : text.splitOn separator ≠ [last]) : ∃ stem, text = stem ++ separator :: last := by
  obtain ⟨parts, hParts⟩ := List.getLast?_eq_some_iff.mp hLast
  cases parts with
  | nil => exact absurd hParts hOther
  | cons first parts =>
    refine ⟨[separator].intercalate (first :: parts), ?_⟩
    rw [← intercalate_concat, ← hParts, List.intercalate_splitOn]

theorem exists_mem_splitOn_iff {α : Type} [BEq α] [LawfulBEq α] {separator c : α}
    (h : c ≠ separator) (text : List α) :
    (∃ part ∈ text.splitOn separator, c ∈ part) ↔ c ∈ text := by
  induction text with
  | nil => simp
  | cons first text ih =>
    rw [List.splitOn_cons_eq_if_modifyHead]
    split
    · rename_i hFirst
      rw [beq_iff_eq] at hFirst
      rw [List.mem_cons, ← ih]
      simp [hFirst, h]
    · cases hRest : text.splitOn separator with
      | nil => exact absurd hRest (List.splitOn_ne_nil separator text)
      | cons head rest =>
        rw [List.mem_cons, ← ih, hRest]
        simp only [List.modifyHead_cons, List.mem_cons, or_and_right, exists_or, exists_eq_left,
          or_assoc]

/-- Parts that are each closed by a separator come apart at the separators, and so does a last part
without one. -/
theorem splitOn_flatMap_closed_append {α : Type} [BEq α] [LawfulBEq α] {separator : α}
    {parts : List (List α)} (h : ∀ part ∈ parts, separator ∉ part) {rest : List α}
    (hRest : separator ∉ rest) :
    ((parts.flatMap fun part => part ++ [separator]) ++ rest).splitOn separator =
      parts ++ [rest] := by
  induction parts with
  | nil => exact List.splitOn_eq_singleton hRest
  | cons part parts ih =>
    obtain ⟨hPart, hParts⟩ := List.forall_mem_cons.mp h
    rw [List.flatMap_cons, List.append_assoc, List.append_assoc, List.singleton_append,
      List.splitOn_append_cons_self_of_not_mem hPart, ih hParts, List.cons_append]

theorem splitOn_flatMap_closed {α : Type} [BEq α] [LawfulBEq α] (separator : α)
    (parts : List (List α)) (h : ∀ part ∈ parts, separator ∉ part) :
    (parts.flatMap fun part => part ++ [separator]).splitOn separator = parts ++ [[]] := by
  have hSplit := splitOn_flatMap_closed_append h List.not_mem_nil
  rwa [List.append_nil] at hSplit

/-- The first `n` items of parts put one after the other are the parts that fit whole and a proper
start of the next one. -/
theorem exists_take_flatten {α : Type} (parts : List (List α)) (n : Nat) :
    ∃ count ≤ parts.length,
      (∀ other ≤ parts.length, (parts.take other).flatten.length ≤ n ↔ other ≤ count) ∧
      ∃ rest, parts.flatten.take n = (parts.take count).flatten ++ rest ∧
        (∀ part ∈ parts[count]?, rest <+: part ∧ rest ≠ part) ∧
        (count = parts.length → rest = []) := by
  induction parts generalizing n with
  | nil => exact ⟨0, Nat.le_refl 0, by simp, [], by simp⟩
  | cons part parts ih =>
    by_cases hFits : part.length ≤ n
    · obtain ⟨count, hCount, hLargest, rest, hTake, hNext, hLast⟩ := ih (n - part.length)
      refine ⟨count + 1, Nat.succ_le_succ hCount, ?_, rest, ?_, hNext, ?_⟩
      · intro other hOther
        cases other with
        | zero => simp
        | succ other =>
          have hSame := hLargest other (Nat.le_of_succ_le_succ hOther)
          rw [List.take_succ_cons, List.flatten_cons, List.length_append]
          omega
      · rw [List.flatten_cons, List.take_append, List.take_of_length_le hFits, hTake,
          List.take_succ_cons, List.flatten_cons, List.append_assoc]
      · exact fun hAll => hLast (Nat.succ.inj hAll)
    · refine ⟨0, Nat.zero_le _, ?_, part.take n, ?_, ?_, ?_⟩
      · intro other _
        cases other with
        | zero => simp
        | succ other =>
          rw [List.take_succ_cons, List.flatten_cons, List.length_append]
          omega
      · rw [List.flatten_cons, List.take_append_of_le_length (Nat.le_of_not_le hFits)]
        rfl
      · rintro next hNext
        obtain rfl : part = next := Option.some.inj hNext
        refine ⟨List.take_prefix n part, fun hWhole => hFits ?_⟩
        rw [← hWhole]
        exact List.length_take_le n part
      · exact fun hNone => absurd hNone (Nat.succ_ne_zero _).symm

end FunctionIndex.Text
