import FunctionIndex.Text.Utf8
import Mathlib.Data.List.Basic
import Mathlib.Tactic.SplitIfs

/-! # Bytes of a text

The bytes of a text are those of its characters one after the other. A byte below U+0080 stands only
for the character with its own number, so a text without control characters has none in its bytes.
What is read from a range of bytes depends on the bytes of the range alone.
-/
namespace FunctionIndex.Text.Utf8
set_option autoImplicit false

def bytes (text : String) : List UInt8 := text.toUTF8.data.toList

theorem bytes_ofList (chars : List Char) :
    bytes (String.ofList chars) = chars.flatMap String.utf8EncodeChar := by
  rw [bytes, String.toUTF8, String.toByteArray_ofList, List.utf8Encode, List.data_toByteArray]

theorem bytes_eq (text : String) : bytes text = text.toList.flatMap String.utf8EncodeChar := by
  rw [← bytes_ofList, String.ofList_toList]

theorem bytes_join (texts : List String) : bytes (String.join texts) = texts.flatMap bytes := by
  rw [bytes_eq, String.toList_join, List.flatMap_assoc]
  exact congrArg (texts.flatMap ·) (funext fun text => (bytes_eq text).symm)

/-- The bytes of a character are its number alone, or all at least 0x80. -/
theorem utf8EncodeChar_cases (c : Char) :
    String.utf8EncodeChar c = [c.toNat.toUInt8] ∧ c.toNat < 0x80 ∨
      ∀ byte ∈ String.utf8EncodeChar c, 0x80 ≤ byte.toNat := by
  rw [String.utf8EncodeChar]
  have hNumber : c.val.toNat = c.toNat := rfl
  split_ifs
  · exact .inl ⟨rfl, by omega⟩
  all_goals
    right
    simp only [List.forall_mem_cons, UInt8.toNat_ofNat', List.not_mem_nil, false_imp_iff,
      implies_true, and_true]
    omega

theorem le_of_mem_bytes {text : String} {bound : Nat} (hBound : bound ≤ 0x80)
    (h : ∀ c ∈ text.toList, bound ≤ c.toNat) {byte : UInt8} (hByte : byte ∈ bytes text) :
    bound ≤ byte.toNat := by
  rw [bytes_eq] at hByte
  obtain ⟨c, hc, hByte⟩ := List.mem_flatMap.mp hByte
  rcases utf8EncodeChar_cases c with ⟨hSingle, hSmall⟩ | hHigh
  · rw [hSingle, List.mem_singleton] at hByte
    rw [hByte, Nat.toUInt8, UInt8.toNat_ofNat', Nat.mod_eq_of_lt (by omega)]
    exact h c hc
  · exact Nat.le_trans hBound (hHigh byte hByte)

theorem slice_eq (content : String) (start stop : Nat) :
    slice content start stop =
      if stop ≤ (bytes content).length then
        String.ofList (decode (((bytes content).drop start).take (stop - start)))
      else "" := by
  have hSize : content.toUTF8.size = (bytes content).length := rfl
  rw [slice, hSize]
  by_cases hStop : stop ≤ (bytes content).length
  · by_cases hStart : start < (bytes content).length
    · rw [if_pos ⟨hStart, hStop⟩, if_pos hStop, decodeBytes, ByteArray.data_extract,
        Array.toList_extract, List.extract_eq_take_drop]
      rfl
    · rw [if_neg fun h => hStart h.1, if_pos hStop,
        List.drop_eq_nil_of_le (Nat.le_of_not_lt hStart), List.take_nil, decode]
  · rw [if_neg fun h => hStop h.2, if_neg hStop]

/-- The bytes of a range decide its text in every content that reaches its end. -/
theorem slice_congr {first second : String} {start stop : Nat}
    (hFirst : stop ≤ (bytes first).length) (hSecond : stop ≤ (bytes second).length)
    (hSame : ∀ i < stop, start ≤ i → (bytes first)[i]? = (bytes second)[i]?) :
    slice first start stop = slice second start stop := by
  have hBytes : ((bytes first).drop start).take (stop - start) =
      ((bytes second).drop start).take (stop - start) := by
    apply List.ext_getElem?
    intro i
    rw [List.getElem?_take, List.getElem?_take, List.getElem?_drop, List.getElem?_drop]
    split
    · exact hSame (start + i) (by omega) (Nat.le_add_right start i)
    · rfl
  rw [slice_eq, slice_eq, if_pos hFirst, if_pos hSecond, hBytes]

end FunctionIndex.Text.Utf8
