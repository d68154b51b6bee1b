import FunctionIndex.Json.Quoted
import Mathlib.Data.List.Forall2

/-! # Quoted text

How each character stands in quoted text is given here by a table and two rules. Quoted text has no
control character, and it is read back up to its closing quote, whatever follows.
-/
namespace FunctionIndex.Json.Quoted
set_option autoImplicit false

/-- The characters with an escape of their own, each with the letter of its escape. -/
def letters : List (Char × Char) :=
  [('"', '"'), ('\\', '\\'), ('\x08', 'b'), ('\x0c', 'f'), ('\n', 'n'), ('\r', 'r'), ('\t', 't')]

def hexDigits : List Char := "0123456789abcdef".toList

/-- How a character stands in quoted text. -/
inductive Escape : Char → List Char → Prop
  | letter {c letter : Char} (h : (c, letter) ∈ letters) : Escape c ['\\', letter]
  | code {c high low : Char} (hControl : c.toNat < 0x20) (hLetter : ∀ letter, (c, letter) ∉ letters)
      (hHigh : hexDigits[c.toNat / 16]? = some high) (hLow : hexDigits[c.toNat % 16]? = some low) :
      Escape c ['\\', 'u', '0', '0', high, low]
  | plain {c : Char} (hControl : 0x20 ≤ c.toNat) (hLetter : ∀ letter, (c, letter) ∉ letters) :
      Escape c [c]

theorem hexDigits_getElem? {n : Nat} (h : n < 16) : hexDigits[n]? = some (Nat.digitChar n) := by
  have hAll : ∀ i : Fin 16, hexDigits[i.val]? = some (Nat.digitChar i.val) := by decide
  exact hAll ⟨n, h⟩

theorem encodeChar_of_letter {c letter : Char} (h : (c, letter) ∈ letters) :
    encodeChar c = ['\\', letter] := by
  have hAll : ∀ item ∈ letters, encodeChar item.1 = ['\\', item.2] := by decide
  exact hAll (c, letter) h

theorem encodeChar_of_not_letter {c : Char} (h : ∀ letter, (c, letter) ∉ letters) :
    encodeChar c =
      if c.toNat < 0x20 then
        ['\\', 'u', '0', '0', Nat.digitChar (c.toNat / 16), Nat.digitChar (c.toNat % 16)]
      else [c] := by
  have hNe : ∀ item ∈ letters, c ≠ item.1 := by
    rintro ⟨_, letter⟩ hMem rfl
    exact h letter hMem
  simp only [letters, List.forall_mem_cons, List.not_mem_nil, false_imp_iff, implies_true,
    and_true] at hNe
  obtain ⟨h1, h2, h3, h4, h5, h6, h7⟩ := hNe
  rw [encodeChar, if_neg h1, if_neg h2, if_neg h3, if_neg h4, if_neg h5, if_neg h6, if_neg h7]

theorem escape_iff (c : Char) (text : List Char) : Escape c text ↔ text = encodeChar c := by
  constructor
  · intro h
    cases h with
    | letter hLetter => rw [encodeChar_of_letter hLetter]
    | code hControl hLetter hHigh hLow =>
      rw [hexDigits_getElem? (by omega), Option.some.injEq] at hHigh hLow
      rw [encodeChar_of_not_letter hLetter, if_pos hControl, hHigh, hLow]
    | plain hControl hLetter =>
      rw [encodeChar_of_not_letter hLetter, if_neg (Nat.not_lt.mpr hControl)]
  · rintro rfl
    by_cases hLetter : ∃ letter, (c, letter) ∈ letters
    · obtain ⟨letter, hLetter⟩ := hLetter
      rw [encodeChar_of_letter hLetter]
      exact .letter hLetter
    · rw [not_exists] at hLetter
      rw [encodeChar_of_not_letter hLetter]
      split
      · rename_i hControl
        exact .code hControl hLetter (hexDigits_getElem? (by omega)) (hexDigits_getElem? (by omega))
      · rename_i hControl
        exact .plain (Nat.le_of_not_lt hControl) hLetter

theorem escape_encodeChar (c : Char) : Escape c (encodeChar c) := (escape_iff c _).mpr rfl

/-- Quoted text by its rule alone: each character in turn as it stands there, between quotes. -/
def Quotes (text quoted : List Char) : Prop :=
  ∃ parts, List.Forall₂ Escape text parts ∧ quoted = '"' :: (parts.flatten ++ ['"'])

theorem forall₂_escape_iff (text : List Char) (parts : List (List Char)) :
    List.Forall₂ Escape text parts ↔ parts = text.map encodeChar := by
  induction text generalizing parts with
  | nil => rw [List.forall₂_nil_left_iff, List.map_nil]
  | cons c text ih =>
    rw [List.forall₂_cons_left_iff, List.map_cons]
    constructor
    · rintro ⟨part, rest, hPart, hRest, rfl⟩
      rw [(escape_iff c part).mp hPart, (ih rest).mp hRest]
    · rintro rfl
      exact ⟨encodeChar c, _, escape_encodeChar c, (ih _).mpr rfl, rfl⟩

theorem quotes_iff (text quoted : List Char) : Quotes text quoted ↔ quoted = quote text := by
  rw [quote, encode, List.flatMap_def]
  constructor
  · rintro ⟨parts, hParts, rfl⟩
    rw [(forall₂_escape_iff text parts).mp hParts]
  · rintro rfl
    exact ⟨_, (forall₂_escape_iff text _).mpr rfl, rfl⟩

/-- A character below the space, which quoted text does not show. -/
def isControl (c : Char) : Bool := c.toNat < 0x20

theorem isControl_of_all {text : List Char} (hAll : text.all (!isControl ·) = true) {d : Char}
    (h : d ∈ text) : isControl d = false := by
  simpa using List.all_eq_true.mp hAll d h

theorem isControl_of_mem_encodeChar {c d : Char} (h : d ∈ encodeChar c) : isControl d = false := by
  have hEscape := escape_encodeChar c
  generalize encodeChar c = text at h hEscape
  cases hEscape with
  | letter hLetter =>
    have hAll : letters.all (fun item => ['\\', item.2].all (!isControl ·)) = true := by decide
    exact isControl_of_all (List.all_eq_true.mp hAll _ hLetter) h
  | code hControl _ hHigh hLow =>
    have hDigits : hexDigits.all (!isControl ·) = true := by decide
    rcases List.mem_append.mp (show d ∈ ['\\', 'u', '0', '0'] ++ _ from h) with h | h
    · exact isControl_of_all (by decide) h
    · rcases List.mem_pair.mp h with rfl | rfl
      · exact isControl_of_all hDigits (List.mem_of_getElem? hHigh)
      · exact isControl_of_all hDigits (List.mem_of_getElem? hLow)
  | plain hControl _ =>
    rw [List.mem_singleton.mp h]
    simpa [isControl] using hControl

theorem isControl_of_mem_quote {text : List Char} {d : Char} (h : d ∈ quote text) :
    isControl d = false := by
  rcases List.mem_cons.mp h with rfl | h
  · decide
  · rcases List.mem_append.mp h with h | h
    · obtain ⟨c, -, hChar⟩ := List.mem_flatMap.mp h
      exact isControl_of_mem_encodeChar hChar
    · rw [List.mem_singleton.mp h]
      decide

theorem hexValue?_digitChar {n : Nat} (h : n < 16) : hexValue? (Nat.digitChar n) = some n := by
  have hAll : ∀ i : Fin 16, hexValue? (Nat.digitChar i.val) = some i.val := by decide
  exact hAll ⟨n, h⟩

theorem codePoint?_digitChars {c : Char} (h : c.toNat < 0x20) (rest : List Char) :
    codePoint? ('0' :: '0' :: Nat.digitChar (c.toNat / 16) :: Nat.digitChar (c.toNat % 16) :: rest) =
      some (c, rest) := by
  have hZero : hexValue? '0' = some 0 := by decide
  have hUnit : unit? ('0' :: '0' :: Nat.digitChar (c.toNat / 16) ::
      Nat.digitChar (c.toNat % 16) :: rest) = some (c.toNat, rest) := by
    rw [unit?, hZero, hexValue?_digitChar (by omega), hexValue?_digitChar (by omega)]
    simp only [Option.bind_eq_bind, Option.bind_some, Option.pure_def, Option.some.injEq,
      Prod.mk.injEq, and_true]
    omega
  rw [codePoint?, hUnit]
  simp only [Option.bind_eq_bind, Option.bind_some]
  rw [if_neg (by omega), if_neg (by omega), Char.ofNat_toNat]
  rfl

theorem unescape?_letter {c letter : Char} (h : (c, letter) ∈ letters) (rest : List Char) :
    unescape? (letter :: rest) = some (c, rest) := by
  have hAll : ∀ item ∈ letters, unescape? (item.2 :: rest) = some (item.1, rest) := by
    simp [letters, unescape?]
  exact hAll _ h

theorem read?_escape (fuel : Nat) {rest : List Char} {c : Char} {after : List Char}
    (h : unescape? rest = some (c, after)) :
    read? (fuel + 1) ('\\' :: rest) =
      (read? fuel after).map fun part => (c :: part.1, part.2) := by
  rw [read?, if_neg (by decide), if_pos rfl, h]
  cases hAfter : read? fuel after <;> simp [hAfter]

theorem read?_encodeChar (fuel : Nat) (c : Char) (rest : List Char) :
    read? (fuel + 1) (encodeChar c ++ rest) =
      (read? fuel rest).map fun part => (c :: part.1, part.2) := by
  by_cases hLetter : ∃ letter, (c, letter) ∈ letters
  · obtain ⟨letter, hLetter⟩ := hLetter
    rw [encodeChar_of_letter hLetter]
    exact read?_escape fuel (unescape?_letter hLetter rest)
  · rw [not_exists] at hLetter
    rw [encodeChar_of_not_letter hLetter]
    split
    · rename_i hControl
      exact read?_escape fuel (codePoint?_digitChars hControl rest)
    · rename_i hControl
      have hQuote : c ≠ '"' := by
        rintro rfl
        exact hLetter '"' (by decide)
      have hBackslash : c ≠ '\\' := by
        rintro rfl
        exact hLetter '\\' (by decide)
      rw [List.singleton_append, read?, if_neg hQuote, if_neg hBackslash, if_neg hControl]
      cases read? fuel rest <;> rfl

theorem read?_encode (text rest : List Char) (fuel : Nat) (h : text.length < fuel) :
    read? fuel (encode text ++ '"' :: rest) = some (text, rest) := by
  obtain ⟨fuel, rfl⟩ := Nat.exists_eq_add_one_of_ne_zero (Nat.ne_zero_of_lt h)
  induction text generalizing fuel with
  | nil => rfl
  | cons c text ih =>
    rw [List.length_cons] at h
    obtain ⟨fuel, rfl⟩ :=
      Nat.exists_eq_add_one_of_ne_zero (Nat.ne_zero_of_lt (Nat.lt_of_succ_lt_succ h))
    rw [encode, List.flatMap_cons, List.append_assoc, read?_encodeChar]
    rw [encode] at ih
    rw [ih fuel (Nat.lt_of_succ_lt_succ h)]
    rfl

theorem length_le_encode (text : List Char) : text.length ≤ (encode text).length := by
  induction text with
  | nil => exact Nat.le_refl 0
  | cons c text ih =>
    have hOne : 1 ≤ (encodeChar c).length := by
      have hEscape := escape_encodeChar c
      generalize encodeChar c = shown at hEscape
      cases hEscape <;> simp
    rw [encode, List.flatMap_cons, List.length_append, List.length_cons]
    rw [encode] at ih
    omega

theorem decode?_encode (text rest : List Char) :
    decode? (encode text ++ '"' :: rest) = some (text, rest) := by
  have hLength := length_le_encode text
  apply read?_encode
  rw [List.length_append, List.length_cons]
  omega

end FunctionIndex.Json.Quoted
