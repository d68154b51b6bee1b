import FunctionIndex.Command.Run
import FunctionIndex.Proofs.Text.Decimal
import Mathlib.Data.List.Basic

/-! # What a run tells

Errors are shown at every level but `off`, after whatever else is told and before the last message
of the run. Each of them is `ERROR` and its message, in which what a terminal would obey is spelled
out. A message without a line end is told on one line.
-/
namespace FunctionIndex.Command
set_option autoImplicit false

/-- The characters that a terminal would obey, and how they are spelled. -/
def controls : List (Char × String) :=
  [('\x1b', "\\x1b"), ('\x07', "\\x07"), ('\x08', "\\x08"), ('\x0c', "\\x0c"), ('\x7f', "\\x7f")] ++
    (List.range 32).map fun n =>
      (Char.ofNat (0x80 + n), "\\u\x7b" ++ String.ofList (Nat.toDigits 16 (0x80 + n)) ++ "\x7d")

def visibleChar (c : Char) : String :=
  match controls.find? (·.1 == c) with
  | some control => control.2
  | none => String.singleton c

/-- A text with its control characters spelled out. -/
def visible (text : String) : String := String.join (text.toList.map visibleChar)

/-- Texts one after the other, cut at their line ends. -/
def cutLines (texts : List String) : List String :=
  texts.flatMap fun text => (text.toList.splitOn '\n').map String.ofList

theorem escapeChar_of_mem_controls :
    ∀ control ∈ controls, Event.escapeChar control.1 = control.2.toList := by
  decide +kernel

theorem mem_controls_of_upper {c : Char} (h : 0x80 ≤ c.toNat ∧ c.toNat ≤ 0x9F) :
    ∃ control ∈ controls, control.1 = c := by
  refine ⟨_, List.mem_append_right _ (List.mem_map.mpr ⟨c.toNat - 0x80, ?_, rfl⟩), ?_⟩
  · exact List.mem_range.mpr (by omega)
  · rw [Nat.add_sub_cancel' h.1, Char.ofNat_toNat]

theorem escapeChar_of_plain {c : Char} (h : ∀ control ∈ controls, control.1 ≠ c) :
    Event.escapeChar c = [c] := by
  have hUpper : ¬(0x80 ≤ c.toNat ∧ c.toNat ≤ 0x9F) := by
    intro hRange
    obtain ⟨control, hControl, hSame⟩ := mem_controls_of_upper hRange
    exact h control hControl hSame
  have hOne (control : Char × String) (hControl : control ∈ controls) : c ≠ control.1 :=
    (h control hControl).symm
  rw [Event.escapeChar, if_neg (hOne ('\x1b', "\\x1b") (by simp [controls])),
    if_neg (hOne ('\x07', "\\x07") (by simp [controls])),
    if_neg (hOne ('\x08', "\\x08") (by simp [controls])),
    if_neg (hOne ('\x0c', "\\x0c") (by simp [controls])),
    if_neg (hOne ('\x7f', "\\x7f") (by simp [controls])), if_neg hUpper]

theorem escapeChar_eq (c : Char) : Event.escapeChar c = (visibleChar c).toList := by
  rw [visibleChar]
  cases hFind : controls.find? (·.1 == c) with
  | some control =>
    obtain rfl : control.1 = c := by simpa using List.find?_some hFind
    exact escapeChar_of_mem_controls control (List.mem_of_find?_eq_some hFind)
  | none =>
    rw [String.toList_singleton]
    apply escapeChar_of_plain
    simpa using hFind

theorem text_error (message : String) :
    Event.text { level := .error, message } = "ERROR " ++ visible message := by
  have hEscape : Event.escapeChar = fun c => (visibleChar c).toList := funext escapeChar_eq
  have hVisible : String.ofList (message.toList.flatMap Event.escapeChar) = visible message := by
    rw [← String.toList_inj, String.toList_ofList, visible, String.toList_join, List.flatMap_map,
      hEscape]
  rw [Event.text, hVisible]
  exact String.append_empty

theorem cutLines_append (first second : List String) :
    cutLines (first ++ second) = cutLines first ++ cutLines second := List.flatMap_append

theorem cutLines_of_no_newline {texts : List String} (h : ∀ text ∈ texts, '\n' ∉ text.toList) :
    cutLines texts = texts := by
  induction texts with
  | nil => rfl
  | cons text texts ih =>
    obtain ⟨hText, hTexts⟩ := List.forall_mem_cons.mp h
    rw [cutLines, List.flatMap_cons, List.splitOn_eq_singleton hText, List.map_singleton,
      String.ofList_toList, List.singleton_append]
    exact congrArg (text :: ·) (ih hTexts)

theorem isShown_of_error {level : Level} (hLevel : level ≠ .off) {event : Event}
    (h : event.level = .error) : event.isShown level = true := by
  rw [Event.isShown, h]
  cases level with
  | off => exact absurd rfl hLevel
  | error | warn | info | debug | trace => decide

/-- An event that is no error: a warning, or what is only told on demand. -/
def Event.IsLesser (event : Event) : Prop :=
  event.level = .warn ∨ event.level = .debug ∨ event.level = .trace

theorem Event.IsLesser.tagged {event : Event} (h : event.IsLesser) :
    ∃ tag ∈ ["WARN ", "DEBUG ", "TRACE "], tag.toList <+: event.text.toList := by
  refine ⟨event.level.tag ++ " ", ?_, ?_⟩
  · rcases h with hLevel | hLevel | hLevel
    all_goals
      rw [hLevel]
      decide
  · rw [text, String.append_assoc]
    exact ⟨_, String.toList_append.symm⟩

/-- Standard error has what is shown of some events that are no errors, then some errors in their
order, and then the last message of the run. -/
structure Told (level : Level) (stderr : List String) (others : List Event)
    (errors last : List String) : Prop where
  lines_eq : stderr =
    cutLines ((others.filter (·.isShown level)).map (·.text) ++ errors ++ last)
  /-- An error without a line end has one line. -/
  oneLineEach : (∀ error ∈ errors, '\n' ∉ error.toList) →
    stderr = cutLines ((others.filter (·.isShown level)).map (·.text)) ++ errors ++ last
  others_tagged : ∀ event ∈ others,
    ∃ tag ∈ ["WARN ", "DEBUG ", "TRACE "], tag.toList <+: event.text.toList

theorem Transcript.told {level : Level} (hLevel : level ≠ .off) {transcript : Transcript}
    {others errors : List Event} {last : List String}
    (hEvents : transcript.events = others ++ errors)
    (hOthers : ∀ event ∈ others, event.IsLesser) (hErrors : ∀ event ∈ errors, event.level = .error)
    (hLast : (transcript.failure.map Failure.message).toList = last)
    (hOneLine : ∀ message ∈ last, '\n' ∉ message.toList) :
    Told level (transcript.outcome level).stderr others (errors.map (·.text)) last := by
  have hShown : errors.filter (·.isShown level) = errors :=
    List.filter_eq_self.mpr fun event hEvent => isShown_of_error hLevel (hErrors event hEvent)
  have hLines : (transcript.outcome level).stderr =
      cutLines ((others.filter (·.isShown level)).map (·.text) ++ errors.map (·.text) ++ last) := by
    rw [outcome, hEvents, hLast, List.filter_append, hShown, List.map_append]
    rfl
  refine ⟨hLines, ?_, fun event hEvent => (hOthers event hEvent).tagged⟩
  intro hNoNewline
  rw [hLines, cutLines_append, cutLines_append, cutLines_of_no_newline hNoNewline,
    cutLines_of_no_newline hOneLine]

end FunctionIndex.Command
