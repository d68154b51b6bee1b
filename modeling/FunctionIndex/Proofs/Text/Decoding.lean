import FunctionIndex.Proofs.Text.Utf8
import Mathlib.Tactic.IntervalCases

/-! # Reading back the bytes of characters

The bytes of a character are read as this character, whatever follows them. A start of them that is
not all of them is read as one replacement, and each byte behind the first as one of its own.
-/
namespace FunctionIndex.Text.Utf8
set_option autoImplicit false

def IsContinuation (byte : UInt8) : Prop := 0x80 ≤ byte ∧ byte ≤ 0xBF

def addPayload (payload : Nat) (byte : UInt8) : Nat := payload * 64 + (byte.toNat - 0x80)

/-- What the bytes behind a first byte have to be for a reader that expects them. -/
structure Continues (low high : UInt8) (tail : List UInt8) : Prop where
  all : ∀ byte ∈ tail, IsContinuation byte
  second : ∀ byte ∈ tail.head?, low ≤ byte ∧ byte ≤ high

theorem Continues.tail {low high byte : UInt8} {tail : List UInt8}
    (h : Continues low high (byte :: tail)) : Continues 0x80 0xBF tail where
  all next hNext := h.all next (List.mem_cons_of_mem byte hNext)
  second next hNext := h.all next (List.mem_cons_of_mem byte (List.mem_of_head? hNext))

theorem Continues.take {low high : UInt8} {tail : List UInt8} (h : Continues low high tail)
    (count : Nat) : Continues low high (tail.take count) where
  all byte hByte := h.all byte (List.mem_of_mem_take hByte)
  second byte hByte := by
    cases count with
    | zero => cases hByte
    | succ count =>
      rw [List.head?_take, if_neg (Nat.succ_ne_zero count)] at hByte
      exact h.second byte hByte

theorem continuation_append {low high : UInt8} {tail : List UInt8} (h : Continues low high tail)
    (payload : Nat) (rest : List UInt8) :
    continuation payload low high tail.length (tail ++ rest) =
      (Char.ofNat (tail.foldl addPayload payload), rest) := by
  induction tail generalizing payload low high with
  | nil => rfl
  | cons byte tail ih =>
    rw [List.length_cons, List.cons_append, continuation, if_pos (h.second byte rfl), ih h.tail,
      List.foldl_cons]
    rfl

theorem continuation_of_length_lt {low high : UInt8} {tail : List UInt8}
    (h : Continues low high tail) (payload : Nat) {count : Nat} (hShort : tail.length < count) :
    continuation payload low high count tail = (replacement, []) := by
  induction tail generalizing payload low high count with
  | nil =>
    cases count with
    | zero => exact absurd hShort (Nat.lt_irrefl 0)
    | succ count => rw [continuation]
  | cons byte tail ih =>
    cases count with
    | zero => exact absurd hShort (Nat.not_lt_zero _)
    | succ count =>
      rw [continuation, if_pos (h.second byte rfl)]
      exact ih h.tail _ (Nat.lt_of_succ_lt_succ hShort)

theorem lead?_two {n : Nat} (hLow : 0xC2 ≤ n) (hHigh : n ≤ 0xDF) :
    lead? (UInt8.ofNat n) = some ⟨n - 0xC0, 0x80, 0xBF, 1⟩ := by
  interval_cases n <;> rfl

theorem lead?_three {n : Nat} (hLow : 0xE0 ≤ n) (hHigh : n ≤ 0xEF) :
    lead? (UInt8.ofNat n) = some ⟨n - 0xE0, if n = 0xE0 then 0xA0 else 0x80,
      if n = 0xED then 0x9F else 0xBF, 2⟩ := by
  interval_cases n <;> rfl

theorem lead?_four {n : Nat} (hLow : 0xF0 ≤ n) (hHigh : n ≤ 0xF4) :
    lead? (UInt8.ofNat n) = some ⟨n - 0xF0, if n = 0xF0 then 0x90 else 0x80,
      if n = 0xF4 then 0x8F else 0xBF, 3⟩ := by
  interval_cases n <;> rfl

/-- The bytes that make up the character `c` behind a first byte. -/
structure Completes (lead : Lead) (tail : List UInt8) (c : Char) : Prop where
  length : tail.length = lead.following
  continues : Continues lead.low lead.high tail
  payload : tail.foldl addPayload lead.payload = c.toNat

theorem toNat_ofNat_of_lt {n : Nat} (h : n < 256) : (UInt8.ofNat n).toNat = n := by
  rw [UInt8.toNat_ofNat', Nat.mod_eq_of_lt h]

theorem ofNat_between_iff {low high : UInt8} {n : Nat} (h : n < 256) :
    (low ≤ UInt8.ofNat n ∧ UInt8.ofNat n ≤ high) ↔ low.toNat ≤ n ∧ n ≤ high.toNat := by
  rw [UInt8.le_iff_toNat_le, UInt8.le_iff_toNat_le, toNat_ofNat_of_lt h]

/-- The byte behind a first one that carries the six bits of `part`. -/
def continuationByte (part : Nat) : UInt8 := UInt8.ofNat (part + 0x80)

theorem isContinuation_continuationByte {part : Nat} (h : part < 64) :
    IsContinuation (continuationByte part) := by
  have hLow : (0x80 : UInt8).toNat = 128 := rfl
  have hHigh : (0xBF : UInt8).toNat = 191 := rfl
  rw [IsContinuation, continuationByte, ofNat_between_iff (by omega), hLow, hHigh]
  omega

theorem foldl_addPayload_map {parts : List Nat} (h : ∀ part ∈ parts, part < 64) (payload : Nat) :
    (parts.map continuationByte).foldl addPayload payload =
      parts.foldl (fun payload part => payload * 64 + part) payload := by
  induction parts generalizing payload with
  | nil => rfl
  | cons part parts ih =>
    obtain ⟨hPart, hParts⟩ := List.forall_mem_cons.mp h
    have hByte : (continuationByte part).toNat = part + 128 := toNat_ofNat_of_lt (by omega)
    have hAdd : addPayload payload (continuationByte part) = payload * 64 + part := by
      unfold addPayload
      rw [hByte]
      omega
    rw [List.map_cons, List.foldl_cons, List.foldl_cons, hAdd, ih hParts]

/-- The bytes of a character are a first byte that announces the others, and these. -/
def Announced (c : Char) : Prop :=
  ∃ first lead tail, String.utf8EncodeChar c = first :: tail ∧ 0x80 ≤ first ∧
    lead? first = some lead ∧ Completes lead tail c

theorem announced_of_parts {c : Char} {first : Nat} {lead : Lead} {parts : List Nat}
    (hBytes : String.utf8EncodeChar c = UInt8.ofNat first :: parts.map continuationByte)
    (hFirst : 0x80 ≤ first ∧ first < 256) (hLead : lead? (UInt8.ofNat first) = some lead)
    (hLength : parts.length = lead.following) (hParts : ∀ part ∈ parts, part < 64)
    (hSecond : ∀ part ∈ parts.head?, lead.low.toNat ≤ part + 0x80 ∧ part + 0x80 ≤ lead.high.toNat)
    (hPayload : parts.foldl (fun payload part => payload * 64 + part) lead.payload = c.toNat) :
    Announced c := by
  refine ⟨_, lead, _, hBytes, ?_, hLead, by rw [List.length_map, hLength], ⟨?_, ?_⟩, ?_⟩
  · rw [UInt8.le_iff_toNat_le, toNat_ofNat_of_lt hFirst.2]
    exact hFirst.1
  · exact List.forall_mem_map.mpr fun part hPart =>
      isContinuation_continuationByte (hParts part hPart)
  · intro byte hByte
    rw [List.head?_map, Option.mem_def] at hByte
    obtain ⟨part, hPart, rfl⟩ := Option.map_eq_some_iff.mp hByte
    have hSmall := hParts part (List.mem_of_head? hPart)
    exact (ofNat_between_iff (by omega)).mpr (hSecond part hPart)
  · rw [foldl_addPayload_map hParts, hPayload]

theorem announced_two {c : Char} (hLow : 0x80 ≤ c.toNat) (hHigh : c.toNat ≤ 0x7FF) :
    Announced c := by
  have hNumber : c.val.toNat = c.toNat := rfl
  have hBytes : String.utf8EncodeChar c = UInt8.ofNat (c.toNat / 64 % 32 + 192) ::
      [c.toNat % 64].map continuationByte := by
    rw [String.utf8EncodeChar, hNumber]
    simp only [if_neg (by omega : ¬c.toNat ≤ 127), if_pos hHigh]
    rfl
  apply announced_of_parts hBytes (by omega) (lead?_two (by omega) (by omega)) rfl
  · simp only [List.forall_mem_singleton]
    omega
  · rintro part ⟨⟩
    have h80 : (0x80 : UInt8).toNat = 128 := rfl
    have hBF : (0xBF : UInt8).toNat = 191 := rfl
    rw [h80, hBF]
    omega
  · simp only [List.foldl_cons, List.foldl_nil]
    omega

theorem announced_three {c : Char} (hLow : 0x800 ≤ c.toNat) (hHigh : c.toNat ≤ 0xFFFF) :
    Announced c := by
  have hNumber : c.val.toNat = c.toNat := rfl
  have hBytes : String.utf8EncodeChar c = UInt8.ofNat (c.toNat / 4096 % 16 + 224) ::
      [c.toNat / 64 % 64, c.toNat % 64].map continuationByte := by
    rw [String.utf8EncodeChar, hNumber]
    simp only [if_neg (by omega : ¬c.toNat ≤ 127), if_neg (by omega : ¬c.toNat ≤ 2047),
      if_pos hHigh]
    rfl
  apply announced_of_parts hBytes (by omega) (lead?_three (by omega) (by omega)) rfl
  · simp only [List.forall_mem_cons, List.not_mem_nil, false_imp_iff, implies_true, and_true]
    omega
  -- Nothing below U+0800 has three bytes, and a surrogate is no character.
  · rintro part ⟨⟩
    have hValid : c.toNat < 0xD800 ∨ 0xDFFF < c.toNat ∧ c.toNat < 0x110000 := c.valid
    have hLowest : (if c.toNat / 4096 % 16 + 224 = 0xE0 then 0xA0 else 0x80 : UInt8).toNat =
      if c.toNat / 4096 % 16 + 224 = 0xE0 then 160 else 128 := by split <;> rfl
    have hHighest : (if c.toNat / 4096 % 16 + 224 = 0xED then 0x9F else 0xBF : UInt8).toNat =
      if c.toNat / 4096 % 16 + 224 = 0xED then 159 else 191 := by split <;> rfl
    rw [hLowest, hHighest]
    split <;> split <;> omega
  · simp only [List.foldl_cons, List.foldl_nil]
    omega

theorem announced_four {c : Char} (hLow : 0x10000 ≤ c.toNat) : Announced c := by
  have hNumber : c.val.toNat = c.toNat := rfl
  have hValid : c.toNat < 0xD800 ∨ 0xDFFF < c.toNat ∧ c.toNat < 0x110000 := c.valid
  have hBytes : String.utf8EncodeChar c = UInt8.ofNat (c.toNat / 262144 % 8 + 240) ::
      [c.toNat / 4096 % 64, c.toNat / 64 % 64, c.toNat % 64].map continuationByte := by
    rw [String.utf8EncodeChar, hNumber]
    simp only [if_neg (by omega : ¬c.toNat ≤ 127), if_neg (by omega : ¬c.toNat ≤ 2047),
      if_neg (by omega : ¬c.toNat ≤ 65535)]
    rfl
  apply announced_of_parts hBytes (by omega) (lead?_four (by omega) (by omega)) rfl
  · simp only [List.forall_mem_cons, List.not_mem_nil, false_imp_iff, implies_true, and_true]
    omega
  -- Nothing below U+10000 has four bytes, and no character is above U+10FFFF.
  · rintro part ⟨⟩
    have hLowest : (if c.toNat / 262144 % 8 + 240 = 0xF0 then 0x90 else 0x80 : UInt8).toNat =
      if c.toNat / 262144 % 8 + 240 = 0xF0 then 144 else 128 := by split <;> rfl
    have hHighest : (if c.toNat / 262144 % 8 + 240 = 0xF4 then 0x8F else 0xBF : UInt8).toNat =
      if c.toNat / 262144 % 8 + 240 = 0xF4 then 143 else 191 := by split <;> rfl
    rw [hLowest, hHighest]
    split <;> split <;> omega
  · simp only [List.foldl_cons, List.foldl_nil]
    omega

theorem announced_of_le {c : Char} (h : 0x80 ≤ c.toNat) : Announced c := by
  rcases Nat.lt_or_ge c.toNat 0x800 with hTwo | hMore
  · exact announced_two h (Nat.le_of_lt_succ hTwo)
  · rcases Nat.lt_or_ge c.toNat 0x10000 with hThree | hFour
    · exact announced_three hMore (Nat.le_of_lt_succ hThree)
    · exact announced_four hFour

theorem utf8EncodeChar_of_lt {c : Char} (h : c.toNat < 0x80) :
    String.utf8EncodeChar c = [c.toNat.toUInt8] := by
  have hNumber : c.val.toNat = c.toNat := rfl
  rw [String.utf8EncodeChar, hNumber]
  simp only [if_pos (by omega : c.toNat ≤ 127)]

theorem next_of_lt {c : Char} (h : c.toNat < 0x80) (rest : List UInt8) :
    next c.toNat.toUInt8 rest = (c, rest) := by
  have hByte : c.toNat.toUInt8.toNat = c.toNat := toNat_ofNat_of_lt (by omega)
  have h80 : (0x80 : UInt8).toNat = 128 := rfl
  rw [next, if_pos (by rw [UInt8.lt_iff_toNat_lt, hByte, h80]; exact h), hByte, Char.ofNat_toNat]

theorem next_of_lead {byte : UInt8} {lead : Lead} (hHigh : 0x80 ≤ byte)
    (hLead : lead? byte = some lead) (rest : List UInt8) :
    next byte rest = continuation lead.payload lead.low lead.high lead.following rest := by
  rw [next, if_neg (UInt8.not_lt.mpr hHigh), hLead]

theorem decode_utf8EncodeChar_append (c : Char) (rest : List UInt8) :
    decode (String.utf8EncodeChar c ++ rest) = c :: decode rest := by
  rcases Nat.lt_or_ge c.toNat 0x80 with hLow | hHigh
  · rw [utf8EncodeChar_of_lt hLow, List.singleton_append, decode, next_of_lt hLow]
  · obtain ⟨first, lead, tail, hBytes, hFirst, hLead, hTail⟩ := announced_of_le hHigh
    rw [hBytes, List.cons_append, decode, next_of_lead hFirst hLead, ← hTail.length,
      continuation_append hTail.continues, hTail.payload, Char.ofNat_toNat]

theorem decode_flatMap_utf8EncodeChar (chars : List Char) :
    decode (chars.flatMap String.utf8EncodeChar) = chars := by
  induction chars with
  | nil => rw [List.flatMap_nil, decode]
  | cons c chars ih => rw [List.flatMap_cons, decode_utf8EncodeChar_append, ih]

/-- Some first bytes of a character, but not all of them, are read as one replacement. -/
theorem decode_take_utf8EncodeChar {c : Char} {count : Nat} (hSome : 0 < count)
    (hPart : count < c.utf8Size) :
    decode ((String.utf8EncodeChar c).take count) = [replacement] := by
  rw [← String.length_utf8EncodeChar] at hPart
  rcases Nat.lt_or_ge c.toNat 0x80 with hLow | hHigh
  · rw [utf8EncodeChar_of_lt hLow, List.length_singleton] at hPart
    omega
  · obtain ⟨first, lead, tail, hBytes, hFirst, hLead, hTail⟩ := announced_of_le hHigh
    obtain ⟨count, rfl⟩ := Nat.exists_eq_succ_of_ne_zero (Nat.ne_of_gt hSome)
    rw [hBytes, List.length_cons] at hPart
    have hShort : (tail.take count).length < lead.following := by
      rw [List.length_take, ← hTail.length]
      omega
    rw [hBytes, List.take_succ_cons, decode, next_of_lead hFirst hLead,
      continuation_of_length_lt (hTail.continues.take count) lead.payload hShort, decode]

theorem isContinuation_of_mem_drop {c : Char} {count : Nat} (hSome : 0 < count) {byte : UInt8}
    (h : byte ∈ (String.utf8EncodeChar c).drop count) : IsContinuation byte := by
  obtain ⟨count, rfl⟩ := Nat.exists_eq_succ_of_ne_zero (Nat.ne_of_gt hSome)
  rcases Nat.lt_or_ge c.toNat 0x80 with hLow | hHigh
  · rw [utf8EncodeChar_of_lt hLow, List.drop_succ_cons, List.drop_nil] at h
    cases h
  · obtain ⟨first, lead, tail, hBytes, -, -, hTail⟩ := announced_of_le hHigh
    rw [hBytes, List.drop_succ_cons] at h
    exact hTail.continues.all byte (List.mem_of_mem_drop h)

theorem lead?_of_isContinuation {byte : UInt8} (h : IsContinuation byte) : lead? byte = none := by
  obtain ⟨-, hByte⟩ := h
  grind [lead?]

theorem decode_cons_of_isContinuation {byte : UInt8} (h : IsContinuation byte)
    (rest : List UInt8) : decode (byte :: rest) = replacement :: decode rest := by
  rw [decode, next, if_neg (UInt8.not_lt.mpr h.1), lead?_of_isContinuation h]

/-- Each byte that can only stand behind a first one is read as one replacement. -/
theorem decode_append_of_isContinuation {bytes : List UInt8}
    (h : ∀ byte ∈ bytes, IsContinuation byte) (rest : List UInt8) :
    decode (bytes ++ rest) = List.replicate bytes.length replacement ++ decode rest := by
  induction bytes with
  | nil => rfl
  | cons byte bytes ih =>
    obtain ⟨hByte, hBytes⟩ := List.forall_mem_cons.mp h
    rw [List.cons_append, decode_cons_of_isContinuation hByte, ih hBytes, List.length_cons,
      List.replicate_succ, List.cons_append]

end FunctionIndex.Text.Utf8
