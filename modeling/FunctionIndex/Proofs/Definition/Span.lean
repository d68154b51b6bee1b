import FunctionIndex.Proofs.Definition.Basic

/-! # Line spans in 32 bits

The lines of a span are the rows of its node modulo the size of a word. From this follows when the
lines of a macro are its own first and last line: its last line is lost exactly when the macro has
several lines and the source ends before a line end closes it.
-/
namespace FunctionIndex

namespace Span
set_option autoImplicit false

theorem word_size : UInt32.size = 4294967296 := rfl

theorem toNat_max (a b : UInt32) : (max a b).toNat = max a.toNat b.toNat := by
  rw [Nat.max_def]
  change (if a ≤ b then b else a).toNat = if a ≤ b then b.toNat else a.toNat
  split <;> rfl

theorem toNat_line (row : Nat) : (row.toUInt32 + 1).toNat = (row + 1) % UInt32.size := by
  rw [UInt32.toNat_add]
  change (row % UInt32.size + 1) % UInt32.size = (row + 1) % UInt32.size
  rw [Nat.mod_add_mod]

end Span

namespace Label
set_option autoImplicit false

theorem span_start_toNat (label : Label) (ofMacro : Bool) :
    (label.span ofMacro).start.toNat = (label.startRow + 1) % UInt32.size :=
  Span.toNat_line label.startRow

theorem span_function_stop_toNat (label : Label) :
    (label.span false).stop.toNat =
      max ((label.endRow + 1) % UInt32.size) ((label.startRow + 1) % UInt32.size) := by
  rw [← Span.toNat_line, ← Span.toNat_line, ← Span.toNat_max]
  rfl

theorem span_macro_stop_toNat (label : Label) :
    (label.span true).stop.toNat =
      max (label.endRow % UInt32.size) ((label.startRow + 1) % UInt32.size) := by
  have hStop : label.endRow.toUInt32 + 1 - 1 = label.endRow.toUInt32 := by
    rw [UInt32.add_sub_cancel]
  have hRow : label.endRow.toUInt32.toNat = label.endRow % UInt32.size := rfl
  rw [← Span.toNat_line, ← hRow, ← Span.toNat_max, ← hStop]
  rfl

end Label

namespace Text
set_option autoImplicit false

def newline : UInt8 := 10

def lineEnds (source : String) (count : Nat) : Nat :=
  (source.toUTF8.data.toList.take count).count newline

theorem lineEnds_mono (source : String) {first second : Nat} (h : first ≤ second) :
    lineEnds source first ≤ lineEnds source second :=
  (List.take_prefix_take_left h).sublist.count_le newline

theorem lineEnds_succ_of_newline {source : String} {offset : Nat}
    (h : source.toUTF8.data.toList[offset]? = some newline) :
    lineEnds source (offset + 1) = lineEnds source offset + 1 := by
  rw [lineEnds, List.take_add_one, h, List.count_append]
  rfl

end Text

namespace Label
set_option autoImplicit false

/-- What a parser reports of a node that covers some bytes of the source. -/
structure Placed (source : String) (label : Label) : Prop where
  start_lt_end : label.startByte < label.endByte
  end_le_size : label.endByte ≤ source.toUTF8.size
  startRow_eq : label.startRow = Text.lineEnds source label.startByte
  endRow_eq : label.endRow = Text.lineEnds source label.endByte

def EndsLine (source : String) (label : Label) : Prop :=
  source.toUTF8.data.toList[label.endByte - 1]? = some Text.newline

instance (source : String) (label : Label) : Decidable (label.EndsLine source) :=
  inferInstanceAs (Decidable (_ = _))

/-- The end of the node without the line end that closes it. -/
def contentEnd (source : String) (label : Label) : Nat :=
  if label.EndsLine source then label.endByte - 1 else label.endByte

def lastLine (source : String) (label : Label) : Nat :=
  1 + Text.lineEnds source (label.contentEnd source)

theorem lastLine_of_endsLine {source : String} {label : Label} (hPlaced : label.Placed source)
    (h : label.EndsLine source) :
    label.lastLine source = label.endRow ∧ label.startRow < label.endRow := by
  have hLess := hPlaced.start_lt_end
  have hEnd : label.endRow = Text.lineEnds source (label.endByte - 1) + 1 := by
    rw [hPlaced.endRow_eq, ← Text.lineEnds_succ_of_newline h, Nat.sub_add_cancel (by omega)]
  have hStart : label.startRow ≤ Text.lineEnds source (label.endByte - 1) := by
    rw [hPlaced.startRow_eq]
    exact Text.lineEnds_mono source (by omega)
  rw [lastLine, contentEnd, if_pos h]
  omega

theorem lastLine_of_not_endsLine {source : String} {label : Label} (hPlaced : label.Placed source)
    (h : ¬label.EndsLine source) :
    label.lastLine source = label.endRow + 1 ∧ label.startRow ≤ label.endRow := by
  rw [lastLine, contentEnd, if_neg h, ← hPlaced.endRow_eq]
  refine ⟨Nat.add_comm _ _, ?_⟩
  rw [hPlaced.startRow_eq, hPlaced.endRow_eq]
  exact Text.lineEnds_mono source (Nat.le_of_lt hPlaced.start_lt_end)

def SpanIsOwn (source : String) (label : Label) (record : Record) : Prop :=
  record.start.toNat = 1 + Text.lineEnds source label.startByte ∧
    record.stop.toNat = label.lastLine source

end Label

namespace Cursor
set_option autoImplicit false

/-- A macro's lines are right exactly when they fit in a word and the macro either is closed by a
line end or stands on one line. Else, if they fit, the last line is missing. -/
theorem macro_lines_own_iff (source : String) (c : Cursor) (hMacro : c.kind = Kind.macroDefinition)
    (hPlaced : c.label.Placed source) :
    (c.label.SpanIsOwn source (c.definition source).record ↔
      (c.label.EndsLine source ∨ c.label.startRow = c.label.endRow) ∧
        c.label.lastLine source < UInt32.size) ∧
    (c.label.lastLine source < UInt32.size → ¬c.label.EndsLine source →
      c.label.startRow < c.label.endRow →
        (c.definition source).record.stop.toNat + 1 = c.label.lastLine source) := by
  have hStart : (c.definition source).record.start.toNat =
      (c.label.startRow + 1) % 4294967296 := by
    rw [definition_eq_macroRecord hMacro]
    exact Label.span_start_toNat c.label true
  have hStop : (c.definition source).record.stop.toNat =
      max (c.label.endRow % 4294967296) ((c.label.startRow + 1) % 4294967296) := by
    rw [definition_eq_macroRecord hMacro]
    exact Label.span_macro_stop_toNat c.label
  rw [Label.SpanIsOwn, ← hPlaced.startRow_eq, hStart, hStop, Span.word_size]
  -- Both cases compare `max last first` with the last line, where `last` is one too low if open.
  by_cases hEnds : c.label.EndsLine source
  · obtain ⟨hLast, hRows⟩ := Label.lastLine_of_endsLine hPlaced hEnds
    rw [hLast]
    refine ⟨⟨?_, ?_⟩, fun _ hOpen => absurd hEnds hOpen⟩
    · rintro ⟨hFirst, hEnd⟩
      exact ⟨.inl hEnds, by omega⟩
    · rintro ⟨-, hFits⟩
      omega
  · obtain ⟨hLast, hRows⟩ := Label.lastLine_of_not_endsLine hPlaced hEnds
    rw [hLast]
    refine ⟨⟨?_, ?_⟩, ?_⟩
    · rintro ⟨hFirst, hEnd⟩
      exact ⟨.inr (by omega), by omega⟩
    · rintro ⟨hOne, hFits⟩
      have hOne := hOne.resolve_left hEnds
      omega
    · intro hFits _ hSeveral
      omega

/-- The only definition of a source that begins with `#define F(x) \` and the line ` x`. -/
def continuedMacro (endByte endRow : Nat) : Cursor :=
  let arguments : Tree :=
    .node ⟨"preproc_params", true, 9, 12, 0, 0⟩
      [.node ⟨"(", false, 9, 10, 0, 0⟩ [], .node ⟨"identifier", true, 10, 11, 0, 0⟩ [],
        .node ⟨")", false, 11, 12, 0, 0⟩ []]
  let macroTree : Tree :=
    .node ⟨"preproc_function_def", true, 0, endByte, 0, endRow⟩
      [.node ⟨"#define", false, 0, 7, 0, 0⟩ [], .node ⟨"identifier", true, 8, 9, 0, 0⟩ [],
        arguments, .node ⟨"preproc_arg", true, 16, 17, 1, 1⟩ []]
  ⟨⟨1, macroTree, []⟩,
    [⟨0, .node ⟨"translation_unit", true, 0, endByte, 0, endRow⟩ [macroTree], []⟩]⟩

theorem closed_macro_lines_own :
    (continuedMacro 18 2).kind = Kind.macroDefinition ∧
      (continuedMacro 18 2).label.Placed "#define F(x) \\\n x\n" ∧
      (continuedMacro 18 2).label.SpanIsOwn "#define F(x) \\\n x\n"
        ((continuedMacro 18 2).definition "#define F(x) \\\n x\n").record := by
  have hPlaced : (continuedMacro 18 2).label.Placed "#define F(x) \\\n x\n" :=
    ⟨by decide, by decide, by decide, by decide⟩
  have hEnds : (continuedMacro 18 2).label.EndsLine "#define F(x) \\\n x\n" := by decide
  have hFits : (continuedMacro 18 2).label.lastLine "#define F(x) \\\n x\n" < UInt32.size := by
    decide
  exact ⟨rfl, hPlaced, (macro_lines_own_iff _ (continuedMacro 18 2) rfl hPlaced).1.mpr
    ⟨.inl hEnds, hFits⟩⟩

theorem open_macro_lines_not_own :
    ¬∀ (source : String) (c : Cursor), c.kind = Kind.macroDefinition → c.label.Placed source →
      (c.label.EndsLine source ∨ c.label.endByte = source.toUTF8.size) →
        c.label.SpanIsOwn source (c.definition source).record := by
  intro h
  have hPlaced : (continuedMacro 17 1).label.Placed "#define F(x) \\\n x" :=
    ⟨by decide, by decide, by decide, by decide⟩
  have hOwn := h "#define F(x) \\\n x" (continuedMacro 17 1) rfl hPlaced (.inr (by decide))
  exact absurd hOwn.2 (by decide)

end Cursor
end FunctionIndex
