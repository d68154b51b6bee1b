import FunctionIndex.Text.Spacing
import Mathlib.Data.List.TakeWhile

/-! # Words

The words of a text are its runs of characters between blanks. Normalisation changes only what
stands around them, so a text that is put in normal spacing keeps its words.
-/
namespace FunctionIndex.Text
set_option autoImplicit false

def words (text : List Char) : List (List Char) :=
  (text.splitOnP isBlank).filter fun piece => !piece.isEmpty

/-- The characters of a text that are not blank. -/
def shown (text : List Char) : List Char := text.filter fun c => !isBlank c

theorem shown_append (first second : List Char) :
    shown (first ++ second) = shown first ++ shown second := List.filter_append _ _

theorem shown_cons_blank {c : Char} (hBlank : isBlank c = true) (text : List Char) :
    shown (c :: text) = shown text :=
  List.filter_cons_of_neg (by simp [hBlank])

theorem shown_of_blanks {blanks : List Char} (h : ∀ c ∈ blanks, isBlank c = true) :
    shown blanks = [] :=
  List.filter_eq_nil_iff.mpr fun c hc => by simp [h c hc]

theorem shown_of_no_blank {text : List Char} (h : ∀ c ∈ text, isBlank c = false) :
    shown text = text :=
  List.filter_eq_self.mpr fun c hc => by simp [h c hc]

/-- Words come apart at a blank. -/
theorem words_append_blank {c : Char} (hBlank : isBlank c = true) (first second : List Char) :
    words (first ++ c :: second) = words first ++ words second := by
  rw [words, List.splitOnP_append_cons first second hBlank, List.filter_append]
  rfl

theorem words_cons_blank {c : Char} (hBlank : isBlank c = true) (text : List Char) :
    words (c :: text) = words text := words_append_blank hBlank [] text

theorem words_blanks_append {blanks : List Char} (h : ∀ c ∈ blanks, isBlank c = true)
    (text : List Char) : words (blanks ++ text) = words text := by
  induction blanks with
  | nil => rfl
  | cons c blanks ih =>
    obtain ⟨hc, hBlanks⟩ := List.forall_mem_cons.mp h
    exact (words_cons_blank hc _).trans (ih hBlanks)

theorem words_of_blanks {blanks : List Char} (h : ∀ c ∈ blanks, isBlank c = true) :
    words blanks = [] := by
  rw [← List.append_nil blanks, words_blanks_append h]
  rfl

theorem words_append_blanks {blanks : List Char} (h : ∀ c ∈ blanks, isBlank c = true)
    (text : List Char) : words (text ++ blanks) = words text := by
  cases blanks with
  | nil => rw [List.append_nil]
  | cons c blanks =>
    obtain ⟨hc, hBlanks⟩ := List.forall_mem_cons.mp h
    rw [words_append_blank hc, words_of_blanks hBlanks, List.append_nil]

theorem words_append_gap {gap : List Char} (hGap : gap ≠ [])
    (hBlanks : ∀ c ∈ gap, isBlank c = true) (first second : List Char) :
    words (first ++ gap ++ second) = words first ++ words second := by
  cases gap with
  | nil => exact absurd rfl hGap
  | cons c gap =>
    obtain ⟨hc, hRest⟩ := List.forall_mem_cons.mp hBlanks
    rw [List.append_assoc, List.cons_append, words_append_blank hc, words_blanks_append hRest]

theorem words_of_no_blank {word : List Char} (hWord : word ≠ [])
    (h : ∀ c ∈ word, isBlank c = false) : words word = [word] := by
  rw [words, List.splitOnP_eq_singleton h, List.filter_cons_of_pos (by simpa using hWord)]
  rfl

/-- The words of a text in order: it is blanks only, or blanks before a word that goes on to the next
blank or to the end of the text. -/
inductive Laid : List (List Char) → List Char → Prop
  | blanks {blanks : List Char} (hBlanks : ∀ c ∈ blanks, isBlank c = true) : Laid [] blanks
  | word {blanks word rest : List Char} {later : List (List Char)}
      (hBlanks : ∀ c ∈ blanks, isBlank c = true) (hWord : word ≠ [])
      (hShown : ∀ c ∈ word, isBlank c = false) (hEnd : ∀ c ∈ rest.head?, isBlank c = true)
      (hRest : Laid later rest) : Laid (word :: later) (blanks ++ (word ++ rest))

theorem Laid.words_eq {parts : List (List Char)} {text : List Char} (h : Laid parts text) :
    words text = parts := by
  induction h with
  | blanks hBlanks => exact words_of_blanks hBlanks
  | @word blanks word rest later hBlanks hWord hShown hEnd _ ih =>
    rw [words_blanks_append hBlanks]
    cases rest with
    | nil =>
      rw [List.append_nil, words_of_no_blank hWord hShown, ← ih]
      rfl
    | cons c rest =>
      rw [words_append_blank (hEnd c rfl), words_of_no_blank hWord hShown, ← ih,
        words_cons_blank (hEnd c rfl), List.singleton_append]

theorem Laid.cons_blank {parts : List (List Char)} {text : List Char} (h : Laid parts text)
    {c : Char} (hc : isBlank c = true) : Laid parts (c :: text) := by
  cases h with
  | blanks hBlanks => exact .blanks (List.forall_mem_cons.mpr ⟨hc, hBlanks⟩)
  | word hBlanks hWord hShown hEnd hRest =>
    exact .word (List.forall_mem_cons.mpr ⟨hc, hBlanks⟩) hWord hShown hEnd hRest

/-- A character in front of a blank is a word of its own, and in front of a word it begins it. -/
theorem Laid.cons_shown {parts : List (List Char)} {text : List Char} (h : Laid parts text)
    {c : Char} (hc : isBlank c = false) : ∃ parts, Laid parts (c :: text) := by
  have hNone : ∀ b ∈ ([] : List Char), isBlank b = true := fun b hb => absurd hb List.not_mem_nil
  have hAlone : ∀ b ∈ [c], isBlank b = false := List.forall_mem_singleton.mpr hc
  have hNew (hEnd : ∀ b ∈ text.head?, isBlank b = true) : Laid ([c] :: parts) (c :: text) :=
    .word hNone (List.cons_ne_nil c []) hAlone hEnd h
  cases h with
  | blanks hBlanks => exact ⟨_, hNew fun b hb => hBlanks b (List.mem_of_mem_head? hb)⟩
  | @word blanks word _ _ hBlanks _ hShown hEnd hRest =>
    cases blanks with
    | nil =>
      have hLonger : ∀ b ∈ c :: word, isBlank b = false := List.forall_mem_cons.mpr ⟨hc, hShown⟩
      exact ⟨_, .word hNone (List.cons_ne_nil c word) hLonger hEnd hRest⟩
    | cons b blanks =>
      refine ⟨_, hNew ?_⟩
      rintro _ ⟨⟩
      exact hBlanks b List.mem_cons_self

theorem exists_laid (text : List Char) : ∃ parts, Laid parts text := by
  induction text with
  | nil => exact ⟨[], .blanks fun c hc => absurd hc List.not_mem_nil⟩
  | cons c text ih =>
    obtain ⟨parts, hParts⟩ := ih
    cases hc : isBlank c with
    | true => exact ⟨parts, hParts.cons_blank hc⟩
    | false => exact hParts.cons_shown hc

theorem laid_iff (parts : List (List Char)) (text : List Char) :
    Laid parts text ↔ parts = words text := by
  constructor
  · exact fun h => h.words_eq.symm
  · rintro rfl
    obtain ⟨parts, hParts⟩ := exists_laid text
    rwa [hParts.words_eq]

theorem flatten_words (text : List Char) : (words text).flatten = shown text := by
  obtain ⟨parts, h⟩ := exists_laid text
  rw [h.words_eq]
  induction h with
  | blanks hBlanks => rw [shown_of_blanks hBlanks, List.flatten_nil]
  | word hBlanks hWord hShown hEnd hRest ih =>
    rw [List.flatten_cons, ih, shown_append, shown_of_blanks hBlanks, List.nil_append,
      shown_append, shown_of_no_blank hShown]

/-- The text before a run can end inside a word, so it is carried along. -/
theorem words_append_collapseFrom {inRun : Bool} (before : List Char)
    (hBefore : inRun = true → before = []) (text : List Char) :
    words (before ++ collapseFrom inRun text) = words (before ++ text) := by
  induction text generalizing inRun before with
  | nil => rfl
  | cons c rest ih =>
    rw [collapseFrom]
    split
    · rename_i hc
      have hRest : words (collapseFrom true rest) = words rest := ih [] fun _ => rfl
      split
      · rename_i hRun
        rw [hBefore hRun, List.nil_append, List.nil_append, hRest, words_cons_blank hc]
      · rw [words_append_blank isBlank_space, words_append_blank hc, hRest]
    · rw [List.append_cons, List.append_cons before c rest]
      exact ih _ fun h => absurd h Bool.false_ne_true

theorem words_trimStart (text : List Char) : words (trimStart text) = words text := by
  have hBlanks : ∀ c ∈ text.takeWhile isBlank, isBlank c = true :=
    fun c hc => List.mem_takeWhile_imp hc
  calc
    words (trimStart text) = words (text.takeWhile isBlank ++ trimStart text) :=
      (words_blanks_append hBlanks _).symm
    _ = words text := by rw [trimStart, List.takeWhile_append_dropWhile]

theorem words_trimEnd (text : List Char) : words (trimEnd text) = words text := by
  have hBlanks : ∀ c ∈ (text.reverse.takeWhile isBlank).reverse, isBlank c = true :=
    fun c hc => List.mem_takeWhile_imp (List.mem_reverse.mp hc)
  calc
    words (trimEnd text) = words (trimEnd text ++ (text.reverse.takeWhile isBlank).reverse) :=
      (words_append_blanks hBlanks _).symm
    _ = words text := by
      rw [trimEnd, ← List.reverse_append, List.takeWhile_append_dropWhile, List.reverse_reverse]

theorem words_normalizeChars (text : List Char) : words (normalizeChars text) = words text := by
  rw [normalizeChars, trim, words_trimEnd, words_trimStart]
  exact words_append_collapseFrom [] (fun _ => rfl) text

theorem shown_normalizeChars (text : List Char) : shown (normalizeChars text) = shown text := by
  rw [← flatten_words, words_normalizeChars, flatten_words]

end FunctionIndex.Text
