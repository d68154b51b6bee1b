/-! # Reading bytes as text

Bytes are read as UTF-8 without failing. Where they form no character, the longest start that some
character could have is replaced by a single U+FFFD.
-/
namespace FunctionIndex.Text.Utf8
set_option autoImplicit false

/-- What the first byte of a character of several bytes fixes: its own payload, the bounds of the
second byte, and how many bytes follow the first. -/
structure Lead where
  payload : Nat
  low : UInt8
  high : UInt8
  following : Nat

/-- The bounds of the second byte leave out overlong forms, surrogates and code points above
U+10FFFF. -/
def lead? (byte : UInt8) : Option Lead :=
  if 0xC2 ≤ byte ∧ byte ≤ 0xDF then some ⟨byte.toNat - 0xC0, 0x80, 0xBF, 1⟩
  else if byte = 0xE0 then some ⟨0, 0xA0, 0xBF, 2⟩
  else if byte = 0xED then some ⟨0xD, 0x80, 0x9F, 2⟩
  else if 0xE1 ≤ byte ∧ byte ≤ 0xEF then some ⟨byte.toNat - 0xE0, 0x80, 0xBF, 2⟩
  else if byte = 0xF0 then some ⟨0, 0x90, 0xBF, 3⟩
  else if 0xF1 ≤ byte ∧ byte ≤ 0xF3 then some ⟨byte.toNat - 0xF0, 0x80, 0xBF, 3⟩
  else if byte = 0xF4 then some ⟨4, 0x80, 0x8F, 3⟩
  else none

def replacement : Char := '\uFFFD'

/-- Reads `count` more bytes of a character whose payload so far is `payload`; the first of them has
to lie between `low` and `high`. Gives the character and the bytes that are left. -/
def continuation (payload : Nat) (low high : UInt8) : Nat → List UInt8 → Char × List UInt8
  | 0, bytes => (Char.ofNat payload, bytes)
  | _ + 1, [] => (replacement, [])
  | count + 1, byte :: bytes =>
    if low ≤ byte ∧ byte ≤ high then
      continuation (payload * 64 + (byte.toNat - 0x80)) 0x80 0xBF count bytes
    else (replacement, byte :: bytes)

theorem length_continuation_le (payload : Nat) (low high : UInt8) (count : Nat)
    (bytes : List UInt8) :
    (continuation payload low high count bytes).2.length ≤ bytes.length := by
  induction count generalizing payload low high bytes with
  | zero => simp [continuation]
  | succ count ih =>
    cases bytes with
    | nil => simp [continuation]
    | cons byte bytes =>
      rw [continuation]
      split
      · exact Nat.le_succ_of_le (ih _ _ _ _)
      · exact Nat.le_refl _

def next (byte : UInt8) (bytes : List UInt8) : Char × List UInt8 :=
  if byte < 0x80 then (Char.ofNat byte.toNat, bytes)
  else match lead? byte with
    | some lead => continuation lead.payload lead.low lead.high lead.following bytes
    | none => (replacement, bytes)

theorem length_next_le (byte : UInt8) (bytes : List UInt8) :
    (next byte bytes).2.length ≤ bytes.length := by
  rw [next]
  split
  · exact Nat.le_refl _
  · split
    · exact length_continuation_le _ _ _ _ _
    · exact Nat.le_refl _

def decode : List UInt8 → List Char
  | [] => []
  | byte :: bytes => (next byte bytes).1 :: decode (next byte bytes).2
termination_by bytes => bytes.length
decreasing_by exact Nat.lt_succ_of_le (length_next_le byte bytes)

def decodeBytes (bytes : ByteArray) : String := String.ofList (decode bytes.data.toList)

/-- The text of the bytes from `start` up to `stop` of `content`. A range that begins at or after
the end of the content, or goes beyond it, has the empty text. -/
def slice (content : String) (start stop : Nat) : String :=
  let bytes := content.toUTF8
  if start < bytes.size ∧ stop ≤ bytes.size then decodeBytes (bytes.extract start stop) else ""

end FunctionIndex.Text.Utf8
