import FunctionIndex.Proofs.Report.Lines

/-! # Reports in a sink without room

A sink that takes a limited number of bytes holds the first bytes of a report, up to its capacity,
however the report is cut into pieces. In the line format these are some whole lines, as many as
fit, and a start of the next one.
-/
namespace FunctionIndex

namespace Sink
set_option autoImplicit false

theorem write_bounded (room : Nat) (held chunk : List UInt8) :
    Sink.write ⟨some room, held⟩ chunk =
      (decide (chunk.length ≤ room), ⟨some (room - chunk.length), held ++ chunk.take room⟩) := by
  by_cases hFits : chunk.length ≤ room
  · simp only [write, if_pos hFits, decide_eq_true hFits, List.take_of_length_le hFits]
  · have hFull : room - chunk.length = 0 := by omega
    simp only [write, if_neg hFits, decide_eq_false hFits, hFull]

/-- Only the bytes count, not how they are cut into chunks. -/
theorem writeAll_bounded (chunks : List (List UInt8)) (room : Nat) (held : List UInt8) :
    Sink.writeAll ⟨some room, held⟩ chunks =
      (decide (chunks.flatten.length ≤ room),
        ⟨some (room - chunks.flatten.length), held ++ chunks.flatten.take room⟩) := by
  induction chunks generalizing room held with
  | nil => simp [writeAll]
  | cons chunk chunks ih =>
    rw [writeAll, write_bounded, List.flatten_cons, List.length_append, List.take_append]
    by_cases hFits : chunk.length ≤ room
    · simp only [decide_eq_true hFits, ih, List.take_of_length_le hFits, List.append_assoc,
        Nat.sub_sub, Nat.le_sub_iff_add_le' hFits]
    · have hFull : room - chunk.length = 0 := by omega
      have hMore : ¬chunk.length + chunks.flatten.length ≤ room := by omega
      have hNone : room - (chunk.length + chunks.flatten.length) = 0 := by omega
      simp only [decide_eq_false hFits, decide_eq_false hMore, hFull, hNone, List.take_zero,
        List.append_nil]

end Sink

namespace Report
set_option autoImplicit false

theorem write_ofCapacity (format : Format) (withFile : Bool) (files : List FileRecords)
    (capacity : Nat) :
    write format withFile files (.ofCapacity capacity) =
      (decide ((Text.Utf8.bytes (text format withFile files)).length ≤ capacity),
        ⟨some (capacity - (Text.Utf8.bytes (text format withFile files)).length),
          (Text.Utf8.bytes (text format withFile files)).take capacity⟩) := by
  have hBytes : Text.Utf8.bytes (text format withFile files) =
      ((chunks format withFile files).map fun chunk => chunk.toUTF8.data.toList).flatten := by
    rw [text, Text.Utf8.bytes_join, List.flatMap_def]
    rfl
  rw [write, Sink.ofCapacity, Sink.writeAll_bounded, List.nil_append, hBytes]

/-- The bytes of an entry's line with the newline that closes it. -/
def closedLine (withFile : Bool) (item : String × Record) : List UInt8 :=
  Text.Utf8.bytes (line withFile item) ++ [10]

theorem bytes_text_lines_eq_flatMap (withFile : Bool) (files : List FileRecords) :
    Text.Utf8.bytes (text .lines withFile files) =
      (located files).flatMap (closedLine withFile) := by
  rw [bytes_text_lines, List.flatMap_map]
  rfl

/-- What a sink that takes `capacity` bytes holds of a report, and whether all of it is written. -/
structure Truncated (format : Format) (withFile : Bool) (files : List FileRecords)
    (capacity : Nat) : Prop where
  complete_iff : (write format withFile files (.ofCapacity capacity)).1 = true ↔
    (Text.Utf8.bytes (text format withFile files)).length ≤ capacity
  held : (write format withFile files (.ofCapacity capacity)).2.held =
    (Text.Utf8.bytes (text format withFile files)).take capacity
  /-- It does not matter in which pieces the report is handed over. -/
  pieces : ∀ pieces : List (List UInt8),
    pieces.flatten = Text.Utf8.bytes (text format withFile files) →
      (Sink.ofCapacity capacity).writeAll pieces =
        write format withFile files (.ofCapacity capacity)
  /-- The lines that fit whole are those of the first `count` entries, and of the next entry's line
  there is at most a proper start. -/
  lines : format = .lines → ∃ count ≤ (located files).length,
    (∀ other ≤ (located files).length,
      (((located files).take other).flatMap (closedLine withFile)).length ≤ capacity ↔
        other ≤ count) ∧
    ∃ rest, (write format withFile files (.ofCapacity capacity)).2.held.splitOn 10 =
        ((located files).take count).map (fun item => Text.Utf8.bytes (line withFile item)) ++
          [rest] ∧
      (∀ item ∈ (located files)[count]?,
        rest <+: closedLine withFile item ∧ rest ≠ closedLine withFile item) ∧
      (count = (located files).length → rest = [])

theorem newline_not_mem_line (withFile : Bool) (item : String × Record) :
    10 ∉ Text.Utf8.bytes (line withFile item) :=
  fun hNewline => absurd (le_of_mem_bytes_line hNewline) (by decide)

theorem newline_not_mem_of_start {withFile : Bool} {item : String × Record} {rest : List UInt8}
    (h : rest <+: closedLine withFile item) (hProper : rest ≠ closedLine withFile item) :
    10 ∉ rest := by
  have hLine : rest <+: Text.Utf8.bytes (line withFile item) :=
    (List.prefix_concat_iff.mp h).resolve_left hProper
  exact fun hNewline => newline_not_mem_line withFile item (hLine.subset hNewline)

theorem lines_that_fit (withFile : Bool) (files : List FileRecords) (capacity : Nat) :
    ∃ count ≤ (located files).length,
      (∀ other ≤ (located files).length,
        (((located files).take other).flatMap (closedLine withFile)).length ≤ capacity ↔
          other ≤ count) ∧
      ∃ rest, ((Text.Utf8.bytes (text .lines withFile files)).take capacity).splitOn 10 =
          ((located files).take count).map (fun item => Text.Utf8.bytes (line withFile item)) ++
            [rest] ∧
        (∀ item ∈ (located files)[count]?,
          rest <+: closedLine withFile item ∧ rest ≠ closedLine withFile item) ∧
        (count = (located files).length → rest = []) := by
  obtain ⟨count, hCount, hLargest, rest, hHeld, hNext, hLast⟩ :=
    Text.exists_take_flatten ((located files).map (closedLine withFile)) capacity
  simp only [List.length_map, ← List.map_take, ← List.flatMap_def] at hCount hLargest hHeld hLast
  have hStart : ∀ item ∈ (located files)[count]?,
      rest <+: closedLine withFile item ∧ rest ≠ closedLine withFile item := by
    intro item hItem
    apply hNext
    rw [List.getElem?_map, Option.mem_def.mp hItem]
    rfl
  have hOpen : 10 ∉ rest := by
    rcases Nat.lt_or_ge count (located files).length with hMore | hAll
    · obtain ⟨hPrefix, hProper⟩ := hStart _ (List.getElem?_eq_getElem hMore)
      exact newline_not_mem_of_start hPrefix hProper
    · rw [hLast (Nat.le_antisymm hCount hAll)]
      exact List.not_mem_nil
  have hClosed : ((located files).take count).flatMap (closedLine withFile) =
      (((located files).take count).map fun item =>
        Text.Utf8.bytes (line withFile item)).flatMap (· ++ [10]) := by
    rw [List.flatMap_map]
    rfl
  refine ⟨count, hCount, hLargest, rest, ?_, hStart, hLast⟩
  rw [bytes_text_lines_eq_flatMap, hHeld, hClosed]
  exact Text.splitOn_flatMap_closed_append
    (List.forall_mem_map.mpr fun item _ => newline_not_mem_line withFile item) hOpen

theorem write_truncated (format : Format) (withFile : Bool) (files : List FileRecords)
    (capacity : Nat) : Truncated format withFile files capacity where
  complete_iff := by
    rw [write_ofCapacity]
    exact decide_eq_true_iff
  held := by rw [write_ofCapacity]
  pieces pieces hPieces := by
    rw [write_ofCapacity, Sink.ofCapacity, Sink.writeAll_bounded, hPieces, List.nil_append]
  lines hFormat := by
    rw [hFormat, write_ofCapacity]
    exact lines_that_fit withFile files capacity

end Report
end FunctionIndex
