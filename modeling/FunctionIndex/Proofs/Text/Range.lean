import FunctionIndex.Proofs.Text.Decoding
import FunctionIndex.Tree.Search
import Mathlib.Order.Bounds.Basic

/-! # Texts of byte ranges

A range of bytes may begin and end inside characters. Its text has one replacement for each of its
bytes that belongs to a character begun before it, then the characters that lie in it whole, and one
more replacement if a character begun in it goes beyond its end. Between two boundaries of
characters, the text is the one that stands there.
-/
namespace FunctionIndex

namespace Text.Utf8
set_option autoImplicit false

def IsBoundary (content : String) (place : Nat) : Prop :=
  ∃ before after, content = before ++ after ∧ before.utf8ByteSize = place

/-- Characters with the number of the first byte of each, if the first character is at `place`. -/
def placedFrom (place : Nat) : List Char → List (Nat × Char)
  | [] => []
  | c :: chars => (place, c) :: placedFrom (place + c.utf8Size) chars

/-- The characters that lie whole between two bytes. -/
def inside (start stop : Nat) (items : List (Nat × Char)) : List Char :=
  (items.filter fun item => start ≤ item.1 ∧ item.1 + item.2.utf8Size ≤ stop).map Prod.snd

/-- A character that begins in the range goes beyond its end. -/
def Cuts (start stop : Nat) (items : List (Nat × Char)) : Prop :=
  ∃ item ∈ items, start ≤ item.1 ∧ item.1 < stop ∧ stop < item.1 + item.2.utf8Size

instance (start stop : Nat) (items : List (Nat × Char)) : Decidable (Cuts start stop items) :=
  inferInstanceAs (Decidable (∃ item ∈ items, _))

/-- What is read of `content` from the byte `start` up to the byte `stop`. -/
structure RangeText (content : String) (start stop : Nat) (text : String) : Prop where
  beyond : content.utf8ByteSize < stop → text = ""
  within : stop ≤ content.utf8ByteSize → ∃ boundary,
    IsLeast {place | start ≤ place ∧ IsBoundary content place} boundary ∧
    text.toList = List.replicate (min boundary stop - start) replacement ++
      inside start stop (placedFrom 0 content.toList) ++
      if Cuts start stop (placedFrom 0 content.toList) then [replacement] else []
  substring : IsBoundary content start → IsBoundary content stop → ∃ before after,
    content = before ++ text ++ after ∧ before.utf8ByteSize = start ∧
      (before ++ text).utf8ByteSize = stop

/-- The number of bytes of characters. -/
def width (chars : List Char) : Nat := (chars.flatMap String.utf8EncodeChar).length

@[simp] theorem width_nil : width [] = 0 := rfl

@[simp] theorem width_append (front back : List Char) :
    width (front ++ back) = width front + width back := by
  rw [width, List.flatMap_append, List.length_append, width, width]

@[simp] theorem width_cons (c : Char) (chars : List Char) :
    width (c :: chars) = c.utf8Size + width chars := by
  rw [width, List.flatMap_cons, List.length_append, String.length_utf8EncodeChar, width]

theorem utf8ByteSize_eq_width (text : String) : text.utf8ByteSize = width text.toList := by
  rw [width, ← bytes_eq]
  rfl

theorem eq_nil_of_width_eq_zero {chars : List Char} (h : width chars = 0) : chars = [] := by
  cases chars with
  | nil => rfl
  | cons c chars =>
    have hPositive := c.utf8Size_pos
    rw [width_cons] at h
    omega

theorem isBoundary_iff {content : String} {place : Nat} :
    IsBoundary content place ↔ ∃ before, before <+: content.toList ∧ width before = place := by
  constructor
  · rintro ⟨before, after, rfl, hPlace⟩
    refine ⟨before.toList, ⟨after.toList, String.toList_append.symm⟩, ?_⟩
    rw [← utf8ByteSize_eq_width, hPlace]
  · rintro ⟨before, ⟨after, hContent⟩, hPlace⟩
    refine ⟨String.ofList before, String.ofList after, ?_, ?_⟩
    · rw [← String.ofList_append, hContent, String.ofList_toList]
    · rw [utf8ByteSize_eq_width, String.toList_ofList, hPlace]

theorem placedFrom_append (place : Nat) (front back : List Char) :
    placedFrom place (front ++ back) =
      placedFrom place front ++ placedFrom (place + width front) back := by
  induction front generalizing place with
  | nil => rfl
  | cons c front ih =>
    rw [List.cons_append, placedFrom, ih, placedFrom, List.cons_append, width_cons, Nat.add_assoc]

theorem exists_of_mem_placedFrom {place : Nat} {chars : List Char} {item : Nat × Char}
    (h : item ∈ placedFrom place chars) :
    ∃ before after, chars = before ++ item.2 :: after ∧ item.1 = place + width before := by
  induction chars generalizing place with
  | nil => cases h
  | cons c chars ih =>
    rcases List.mem_cons.mp h with rfl | hItem
    · exact ⟨[], chars, rfl, rfl⟩
    · obtain ⟨before, after, hChars, hPlace⟩ := ih hItem
      refine ⟨c :: before, after, by rw [hChars, List.cons_append], ?_⟩
      rw [hPlace, width_cons, Nat.add_assoc]

theorem le_of_mem_placedFrom {place : Nat} {chars : List Char} {item : Nat × Char}
    (h : item ∈ placedFrom place chars) : place ≤ item.1 := by
  obtain ⟨before, after, -, hPlace⟩ := exists_of_mem_placedFrom h
  rw [hPlace]
  exact Nat.le_add_right place (width before)

/-- What is read of characters that begin in the range. -/
def begun (start stop : Nat) (items : List (Nat × Char)) : List Char :=
  inside start stop items ++ if Cuts start stop items then [replacement] else []

section Missed
variable {start stop : Nat} {items : List (Nat × Char)}
  (hMissed : ∀ item ∈ items, item.1 < start ∨ stop ≤ item.1)
include hMissed

theorem inside_eq_nil : inside start stop items = [] := by
  rw [inside, List.filter_eq_nil_iff.mpr, List.map_nil]
  intro item hItem
  have hPositive := item.2.utf8Size_pos
  have hOutside := hMissed item hItem
  rw [decide_eq_true_iff]
  omega

theorem not_cuts : ¬Cuts start stop items := by
  rintro ⟨item, hItem, hFrom, hBefore, -⟩
  have hOutside := hMissed item hItem
  omega

theorem begun_eq_nil : begun start stop items = [] := by
  rw [begun, inside_eq_nil hMissed, if_neg (not_cuts hMissed), List.append_nil]

theorem begun_append (others : List (Nat × Char)) :
    begun start stop (items ++ others) = begun start stop others := by
  have hInside : inside start stop (items ++ others) = inside start stop others := by
    rw [inside, List.filter_append, List.map_append, ← inside, ← inside, inside_eq_nil hMissed,
      List.nil_append]
  have hCuts : Cuts start stop (items ++ others) ↔ Cuts start stop others := by
    have hNone := not_cuts hMissed
    simp only [Cuts, List.mem_append, or_and_right, exists_or] at hNone ⊢
    exact or_iff_right hNone
  simp only [begun, hInside, hCuts]

end Missed

section First
variable {start stop place : Nat} {c : Char} {items : List (Nat × Char)}

theorem begun_cons_of_le (hFrom : start ≤ place) (hUpto : place + c.utf8Size ≤ stop) :
    begun start stop ((place, c) :: items) = c :: begun start stop items := by
  have hInside : inside start stop ((place, c) :: items) = c :: inside start stop items := by
    rw [inside, List.filter_cons_of_pos, List.map_cons, inside]
    exact decide_eq_true ⟨hFrom, hUpto⟩
  have hCuts : Cuts start stop ((place, c) :: items) ↔ Cuts start stop items := by
    rw [Cuts, List.exists_mem_cons_iff, Cuts, or_iff_right]
    rintro ⟨-, -, hBeyond⟩
    exact absurd hUpto (Nat.not_le.mpr hBeyond)
  simp only [begun, hInside, hCuts, List.cons_append]

theorem begun_cons_of_lt (hFrom : start ≤ place) (hBegin : place < stop)
    (hBeyond : stop < place + c.utf8Size) (h : ∀ item ∈ items, stop ≤ item.1) :
    begun start stop ((place, c) :: items) = [replacement] := by
  have hInside : inside start stop ((place, c) :: items) = [] := by
    rw [inside, List.filter_cons_of_neg, ← inside,
      inside_eq_nil fun item hItem => .inr (h item hItem)]
    exact fun hWhole => absurd (of_decide_eq_true hWhole).2 (Nat.not_le.mpr hBeyond)
  have hCuts : Cuts start stop ((place, c) :: items) :=
    ⟨(place, c), List.mem_cons_self, hFrom, hBegin, hBeyond⟩
  rw [begun, hInside, if_pos hCuts, List.nil_append]

end First

/-- Bytes that begin with a character are read as the characters among them, and a replacement if
they end inside one. -/
theorem decode_take_flatMap (chars : List Char) {start place : Nat} (hFrom : start ≤ place)
    (stop : Nat) :
    decode ((chars.flatMap String.utf8EncodeChar).take (stop - place)) =
      begun start stop (placedFrom place chars) := by
  induction chars generalizing place with
  | nil =>
    rw [List.flatMap_nil, List.take_nil, decode]
    rfl
  | cons c chars ih =>
    rw [List.flatMap_cons, List.take_append, String.length_utf8EncodeChar, Nat.sub_sub]
    have hPositive := c.utf8Size_pos
    rcases Nat.lt_or_ge stop (place + c.utf8Size) with hBeyond | hUpto
    -- The range ends inside the first character or in front of it, so the others are behind it.
    · rw [Nat.sub_eq_zero_of_le (Nat.le_of_lt hBeyond), List.take_zero, List.append_nil]
      have hLater : ∀ item ∈ placedFrom (place + c.utf8Size) chars, stop ≤ item.1 :=
        fun item hItem => Nat.le_trans (Nat.le_of_lt hBeyond) (le_of_mem_placedFrom hItem)
      rcases Nat.lt_or_ge place stop with hBegin | hBefore
      · rw [decode_take_utf8EncodeChar (by omega) (by omega), placedFrom,
          begun_cons_of_lt hFrom hBegin hBeyond hLater]
      · rw [Nat.sub_eq_zero_of_le hBefore, List.take_zero, decode, begun_eq_nil]
        exact fun item hItem => .inr (Nat.le_trans hBefore (le_of_mem_placedFrom hItem))
    · rw [List.take_of_length_le (by rw [String.length_utf8EncodeChar]; omega),
        decode_utf8EncodeChar_append, ih (by omega), placedFrom, begun_cons_of_le hFrom hUpto]

theorem prefix_cons_of_pos {c : Char} {chars other : List Char} (h : other <+: c :: chars)
    (hPositive : 0 < width other) :
    ∃ others, other = c :: others ∧ others <+: chars := by
  rcases List.prefix_cons_iff.mp h with rfl | hOther
  · exact absurd hPositive (Nat.lt_irrefl 0)
  · exact hOther

/-- The first boundary at or behind a byte. In front of it stand only bytes behind the first one of
a character. -/
theorem exists_boundary (chars : List Char) {start : Nat} (h : start ≤ width chars) :
    ∃ front back, chars = front ++ back ∧ start ≤ width front ∧
      (∀ byte ∈ (front.flatMap String.utf8EncodeChar).drop start, IsContinuation byte) ∧
      ∀ other, other <+: chars → start ≤ width other → width front ≤ width other := by
  induction chars generalizing start with
  | nil =>
    refine ⟨[], [], rfl, h, ?_, fun other _ _ => Nat.zero_le _⟩
    rw [List.flatMap_nil, List.drop_nil]
    exact List.forall_mem_nil _
  | cons c chars ih =>
    rcases Nat.eq_zero_or_pos start with rfl | hPositive
    · exact ⟨[], c :: chars, rfl, Nat.zero_le _, List.forall_mem_nil _,
        fun other _ _ => Nat.zero_le _⟩
    · rw [width_cons] at h
      rcases Nat.lt_or_ge start c.utf8Size with hInside | hBehind
      -- The byte is one of the first character, which ends at the boundary.
      · refine ⟨[c], chars, rfl, ?_, ?_, ?_⟩
        · rw [width_cons]
          omega
        · rw [List.flatMap_singleton]
          exact fun byte => isContinuation_of_mem_drop hPositive
        · intro other hOther hStart
          obtain ⟨others, rfl, -⟩ := prefix_cons_of_pos hOther (Nat.lt_of_lt_of_le hPositive hStart)
          simp only [width_cons, width_nil]
          omega
      · have hRest : start - c.utf8Size ≤ width chars := by omega
        obtain ⟨front, back, rfl, hFront, hBytes, hLeast⟩ := ih hRest
        refine ⟨c :: front, back, rfl, ?_, ?_, ?_⟩
        · rw [width_cons]
          omega
        · rwa [List.flatMap_cons, List.drop_append, String.length_utf8EncodeChar,
            List.drop_of_length_le (by rw [String.length_utf8EncodeChar]; omega), List.nil_append]
        · intro other hOther hStart
          obtain ⟨others, rfl, hOthers⟩ :=
            prefix_cons_of_pos hOther (Nat.lt_of_lt_of_le hPositive hStart)
          rw [width_cons] at hStart
          have hLess := hLeast others hOthers (by omega)
          rw [width_cons, width_cons]
          omega

theorem prefix_of_width_le {chars first second : List Char} (hFirst : first <+: chars)
    (hSecond : second <+: chars) (h : width first ≤ width second) : first <+: second := by
  rcases List.prefix_or_prefix_of_prefix hFirst hSecond with hShorter | ⟨rest, rfl⟩
  · exact hShorter
  · rw [width_append] at h
    have hRest : rest = [] := eq_nil_of_width_eq_zero (by omega)
    simp only [hRest, List.append_nil, List.prefix_rfl]

theorem toList_slice {content : String} {stop : Nat} (hStop : stop ≤ width content.toList)
    (start : Nat) :
    (slice content start stop).toList =
      decode (((content.toList.flatMap String.utf8EncodeChar).drop start).take (stop - start)) := by
  rw [slice_eq, bytes_eq, ← width, if_pos hStop, String.toList_ofList]

theorem slice_within {content : String} {start stop : Nat} (h : start ≤ stop)
    (hStop : stop ≤ content.utf8ByteSize) : ∃ boundary,
    IsLeast {place | start ≤ place ∧ IsBoundary content place} boundary ∧
    (slice content start stop).toList =
      List.replicate (min boundary stop - start) replacement ++
        begun start stop (placedFrom 0 content.toList) := by
  rw [utf8ByteSize_eq_width] at hStop
  obtain ⟨front, back, hChars, hFront, hBytes, hLeast⟩ :=
    exists_boundary content.toList (Nat.le_trans h hStop)
  refine ⟨width front, ⟨⟨hFront, ?_⟩, ?_⟩, ?_⟩
  · exact isBoundary_iff.mpr ⟨front, ⟨back, hChars.symm⟩, rfl⟩
  · rintro place ⟨hPlace, hBoundary⟩
    obtain ⟨other, hOther, rfl⟩ := isBoundary_iff.mp hBoundary
    exact hLeast other hOther hPlace
  · have hEarlier : ∀ item ∈ placedFrom 0 front, item.1 < start ∨ stop ≤ item.1 := by
      intro item hItem
      obtain ⟨before, after, rfl, hPlace⟩ := exists_of_mem_placedFrom hItem
      have hPositive := item.2.utf8Size_pos
      have hLess := hLeast before ⟨item.2 :: after ++ back, by rw [hChars, List.append_assoc]⟩
      simp only [width_append, width_cons] at hLess
      omega
    have hLength : min (stop - start) (width front - start) = min (width front) stop - start := by
      omega
    have hLeft : stop - start - (width front - start) = stop - width front := by omega
    rw [toList_slice hStop, hChars, List.flatMap_append,
      List.drop_append, ← width, Nat.sub_eq_zero_of_le hFront, List.drop_zero, List.take_append,
      decode_append_of_isContinuation fun byte hByte => hBytes byte (List.mem_of_mem_take hByte),
      List.length_take, List.length_drop, ← width, hLength, hLeft, decode_take_flatMap back hFront,
      placedFrom_append, begun_append hEarlier, Nat.zero_add]

theorem slice_of_append {content : String} {before middle after : List Char}
    (h : content.toList = before ++ middle ++ after) :
    slice content (width before) (width (before ++ middle)) = String.ofList middle := by
  have hStop : width (before ++ middle) ≤ width content.toList := by
    rw [h, width_append _ after]
    exact Nat.le_add_right _ _
  have hLength : width (before ++ middle) - width before = width middle := by
    rw [width_append, Nat.add_sub_cancel_left]
  have hDrop : (content.toList.flatMap String.utf8EncodeChar).drop (width before) =
      (middle ++ after).flatMap String.utf8EncodeChar := by
    rw [h, List.append_assoc, List.flatMap_append]
    exact List.drop_left
  have hTake : ((middle ++ after).flatMap String.utf8EncodeChar).take (width middle) =
      middle.flatMap String.utf8EncodeChar := by
    rw [List.flatMap_append]
    exact List.take_left
  rw [← String.toList_inj, String.toList_ofList, toList_slice hStop, hLength, hDrop, hTake,
    decode_flatMap_utf8EncodeChar]

theorem slice_of_isBoundary {content : String} {start stop : Nat} (h : start ≤ stop)
    (hStart : IsBoundary content start) (hStop : IsBoundary content stop) : ∃ before after,
    content = before ++ slice content start stop ++ after ∧ before.utf8ByteSize = start ∧
      (before ++ slice content start stop).utf8ByteSize = stop := by
  obtain ⟨before, hBefore, rfl⟩ := isBoundary_iff.mp hStart
  obtain ⟨front, hFront, rfl⟩ := isBoundary_iff.mp hStop
  obtain ⟨middle, rfl⟩ := prefix_of_width_le hBefore hFront h
  obtain ⟨after, hContent⟩ := hFront
  rw [slice_of_append hContent.symm]
  refine ⟨String.ofList before, String.ofList after, ?_, ?_, ?_⟩
  · rw [← String.ofList_append, ← String.ofList_append, hContent, String.ofList_toList]
  · rw [utf8ByteSize_eq_width, String.toList_ofList]
  · rw [← String.ofList_append, utf8ByteSize_eq_width, String.toList_ofList]

end Text.Utf8

namespace Cursor
set_option autoImplicit false

theorem text_rangeText (content : String) (c : Cursor) (h : c.label.startByte ≤ c.label.endByte) :
    Text.Utf8.RangeText content c.label.startByte c.label.endByte (c.text content) where
  beyond hBeyond := by
    rw [text, Text.Utf8.slice_eq, if_neg]
    exact Nat.not_le.mpr hBeyond
  within hWithin := by
    obtain ⟨boundary, hLeast, hText⟩ := Text.Utf8.slice_within h hWithin
    refine ⟨boundary, hLeast, ?_⟩
    rw [text, hText, Text.Utf8.begun, List.append_assoc]
  substring := Text.Utf8.slice_of_isBoundary h

/-- The range begins in the second character and ends in the fourth. -/
theorem text_across_characters :
    let c : Cursor := ⟨⟨0, .node ⟨"identifier", true, 2, 8, 0, 0⟩ [], []⟩, []⟩
    c.label.startByte ≤ c.label.endByte ∧ c.text "aé€😀" = "\uFFFD€\uFFFD" ∧
      Text.Utf8.RangeText "aé€😀" 2 8 "\uFFFD€\uFFFD" := by
  intro c
  have hOrder : c.label.startByte ≤ c.label.endByte := by decide
  have hText : c.text "aé€😀" = "\uFFFD€\uFFFD" := by decide +kernel
  exact ⟨hOrder, hText, hText ▸ text_rangeText "aé€😀" c hOrder⟩

end Cursor
end FunctionIndex
