import FunctionIndex.Proofs.Text.Separated
import FunctionIndex.Proofs.Text.Words
import Mathlib.Data.List.Chain
import Mathlib.Data.List.Infix

/-! # Normal spacing

A text is spaced normally if its only blanks are single spaces between other characters. Texts come
out of normalisation so, and those that are spaced so already stay as they are. Normal spacing is
kept when texts are put side by side. What normalisation makes of a text is given by its words: they
are joined with single spaces, and texts with the same words come out the same.
-/
namespace FunctionIndex.Text
set_option autoImplicit false

structure Spaced (text : List Char) : Prop where
  only_spaces : ∀ c ∈ text, isBlank c = true → c = ' '
  single : text.IsChain fun a b => a = ' ' → b ≠ ' '
  start : text.head? ≠ some ' '
  stop : text.getLast? ≠ some ' '

theorem Spaced.not_blank_of_head? {text : List Char} (h : Spaced text) :
    ∀ c ∈ text.head?, isBlank c = false := by
  intro c hc
  rw [← Bool.not_eq_true]
  intro hBlank
  rw [Option.mem_def] at hc
  exact h.start (h.only_spaces c (List.mem_of_head? hc) hBlank ▸ hc)

theorem spaced_of_no_blank {text : List Char} (h : text.any isBlank = false) : Spaced text := by
  have hShown := List.any_eq_false.mp h
  have hNoSpace : ' ' ∉ text := fun hSpace => hShown ' ' hSpace isBlank_space
  refine ⟨?_, ?_, ?_, ?_⟩
  · exact fun c hc hBlank => absurd hBlank (hShown c hc)
  · apply List.Pairwise.isChain
    apply List.pairwise_iff_forall_sublist.mpr
    intro a b hPair hSpace
    exact absurd (hPair.subset (hSpace ▸ List.mem_cons_self)) hNoSpace
  · exact fun hHead => hNoSpace (List.mem_of_head? hHead)
  · exact fun hLast => hNoSpace (List.mem_of_getLast? hLast)

theorem Spaced.append {first second : List Char} (hFirst : Spaced first) (hSecond : Spaced second) :
    Spaced (first ++ second) where
  only_spaces c hc := by
    rcases List.mem_append.mp hc with hc | hc
    · exact hFirst.only_spaces c hc
    · exact hSecond.only_spaces c hc
  single := by
    refine List.isChain_append.mpr ⟨hFirst.single, hSecond.single, ?_⟩
    rintro a ha b - rfl
    exact absurd ha hFirst.stop
  start := by
    rw [List.head?_append]
    intro hHead
    rcases Option.or_eq_some_iff.mp hHead with hHead | ⟨-, hHead⟩
    · exact hFirst.start hHead
    · exact hSecond.start hHead
  stop := by
    rw [List.getLast?_append]
    intro hLast
    rcases Option.or_eq_some_iff.mp hLast with hLast | ⟨-, hLast⟩
    · exact hSecond.stop hLast
    · exact hFirst.stop hLast

/-- A separator without blanks keeps the parts apart, also empty ones. -/
theorem spaced_intercalate {separator : List Char} (hSeparator : Spaced separator)
    {parts : List (List Char)} (h : ∀ part ∈ parts, Spaced part) :
    Spaced (separator.intercalate parts) := by
  induction parts with
  | nil => exact spaced_of_no_blank rfl
  | cons part parts ih =>
    obtain ⟨hPart, hParts⟩ := List.forall_mem_cons.mp h
    cases parts with
    | nil =>
      rw [List.intercalate_singleton]
      exact hPart
    | cons next parts =>
      rw [List.intercalate_cons_cons]
      exact (hPart.append hSeparator).append (ih hParts)

theorem eq_space_of_mem_collapseFrom {inRun : Bool} {text : List Char} {c : Char}
    (h : c ∈ collapseFrom inRun text) (hBlank : isBlank c = true) : c = ' ' := by
  induction text generalizing inRun with
  | nil => cases h
  | cons first rest ih =>
    rw [collapseFrom] at h
    split at h
    · split at h
      · exact ih h
      · rcases List.mem_cons.mp h with hSpace | h
        · exact hSpace
        · exact ih h
    · rename_i hFirst
      rcases List.mem_cons.mp h with rfl | h
      · exact absurd hBlank hFirst
      · exact ih h

/-- Inside a run of blanks no further space is written. -/
theorem head?_collapseFrom_true (text : List Char) : (collapseFrom true text).head? ≠ some ' ' := by
  induction text with
  | nil => rintro ⟨⟩
  | cons first rest ih =>
    rw [collapseFrom]
    split
    · exact ih
    · rename_i hFirst
      rintro ⟨⟩
      exact hFirst isBlank_space

theorem isChain_collapseFrom (inRun : Bool) (text : List Char) :
    (collapseFrom inRun text).IsChain fun a b => a = ' ' → b ≠ ' ' := by
  induction text generalizing inRun with
  | nil => exact List.IsChain.nil
  | cons first rest ih =>
    rw [collapseFrom]
    split
    · split
      · exact ih true
      · refine (ih true).cons ?_
        rintro b hb - rfl
        exact head?_collapseFrom_true rest hb
    · rename_i hFirst
      refine (ih false).cons ?_
      rintro b - rfl
      exact absurd isBlank_space hFirst

theorem collapseFrom_of_spaced {inRun : Bool} {text : List Char}
    (hOnly : ∀ c ∈ text, isBlank c = true → c = ' ')
    (hSingle : text.IsChain fun a b => a = ' ' → b ≠ ' ')
    (hStart : inRun = true → text.head? ≠ some ' ') : collapseFrom inRun text = text := by
  induction text generalizing inRun with
  | nil => rfl
  | cons first rest ih =>
    obtain ⟨hFirst, hRest⟩ := List.forall_mem_cons.mp hOnly
    rw [collapseFrom]
    split
    · rename_i hBlank
      obtain rfl := hFirst hBlank
      rw [if_neg fun hRun => hStart hRun rfl]
      refine congrArg _ (ih hRest hSingle.tail fun _ => ?_)
      intro hHead
      exact hSingle.rel_head? hHead rfl rfl
    · exact congrArg _ (ih hRest hSingle.tail fun h => absurd h Bool.false_ne_true)

theorem not_blank_of_head?_trimStart (text : List Char) :
    ∀ c ∈ (trimStart text).head?, isBlank c = false := by
  intro c hc
  have hHead := List.head?_dropWhile_not isBlank text
  rw [trimStart, Option.mem_def] at hc
  rwa [hc] at hHead

theorem trimStart_of_head? {text : List Char} (h : ∀ c ∈ text.head?, isBlank c = false) :
    trimStart text = text := by
  cases text with
  | nil => rfl
  | cons first rest => exact List.dropWhile_cons_of_neg (by simpa using h first rfl)

theorem trimEnd_eq (text : List Char) : trimEnd text = (trimStart text.reverse).reverse := rfl

theorem trimEnd_isPrefix (text : List Char) : trimEnd text <+: text := by
  rw [← List.reverse_suffix, trimEnd_eq, List.reverse_reverse]
  exact List.dropWhile_suffix isBlank

theorem trim_isInfix (text : List Char) : trim text <:+: text :=
  (trimEnd_isPrefix _).isInfix.trans (List.dropWhile_suffix isBlank).isInfix

theorem head?_trim_ne_space (text : List Char) : (trim text).head? ≠ some ' ' := by
  intro hHead
  obtain ⟨rest, hRest⟩ := trimEnd_isPrefix (trimStart text)
  have hStart : (trimStart text).head? = some ' ' := by
    rw [← hRest, List.head?_append]
    exact Option.or_eq_some_iff.mpr (.inl hHead)
  have hBlank := not_blank_of_head?_trimStart text ' ' hStart
  exact Bool.false_ne_true (hBlank.symm.trans isBlank_space)

theorem getLast?_trim_ne_space (text : List Char) : (trim text).getLast? ≠ some ' ' := by
  rw [trim, trimEnd_eq, List.getLast?_reverse]
  intro hLast
  have hBlank := not_blank_of_head?_trimStart _ ' ' hLast
  exact Bool.false_ne_true (hBlank.symm.trans isBlank_space)

theorem spaced_normalizeChars (text : List Char) : Spaced (normalizeChars text) where
  only_spaces _ hc := eq_space_of_mem_collapseFrom ((trim_isInfix _).subset hc)
  single := List.IsChain.infix (isChain_collapseFrom false text) (trim_isInfix _)
  start := head?_trim_ne_space _
  stop := getLast?_trim_ne_space _

theorem Spaced.reverse {text : List Char} (h : Spaced text) : Spaced text.reverse where
  only_spaces c hc := h.only_spaces c (List.mem_reverse.mp hc)
  single := by
    rw [List.isChain_reverse]
    exact h.single.imp fun a b hPair hb ha => hPair ha hb
  start := by
    rw [List.head?_reverse]
    exact h.stop
  stop := by
    rw [List.getLast?_reverse]
    exact h.start

theorem normalizeChars_of_spaced {text : List Char} (h : Spaced text) :
    normalizeChars text = text := by
  have hCollapse : collapse text = text :=
    collapseFrom_of_spaced h.only_spaces h.single fun hRun => absurd hRun Bool.false_ne_true
  rw [normalizeChars, hCollapse, trim, trimStart_of_head? h.not_blank_of_head?, trimEnd_eq,
    trimStart_of_head? h.reverse.not_blank_of_head?, List.reverse_reverse]

theorem toList_normalize (text : String) :
    (normalize text).toList = normalizeChars text.toList := by
  rw [normalize, String.toList_ofList]

theorem normalize_eq_self_iff (text : String) : normalize text = text ↔ Spaced text.toList := by
  constructor
  · intro h
    rw [← h, toList_normalize]
    exact spaced_normalizeChars text.toList
  · intro h
    rw [normalize, normalizeChars_of_spaced h, String.ofList_toList]

theorem Spaced.ne_nil_of_append_space {first second : List Char}
    (h : Spaced (first ++ ' ' :: second)) : first ≠ [] ∧ second ≠ [] := by
  constructor
  · rintro rfl
    exact h.start rfl
  · rintro rfl
    exact h.stop List.getLast?_concat

theorem Spaced.sides {first second : List Char} (h : Spaced (first ++ ' ' :: second)) :
    Spaced first ∧ Spaced second := by
  obtain ⟨hFirst, hSecond⟩ := h.ne_nil_of_append_space
  obtain ⟨hSingle, hRest, hSeam⟩ := List.isChain_append.mp h.single
  obtain ⟨hAfter, hRest⟩ := List.isChain_cons.mp hRest
  refine ⟨⟨?_, hSingle, ?_, ?_⟩, ⟨?_, hRest, ?_, ?_⟩⟩
  · exact fun c hc => h.only_spaces c (List.mem_append_left _ hc)
  · rw [← List.head?_append_of_ne_nil _ hFirst]
    exact h.start
  · exact fun hLast => hSeam ' ' hLast ' ' rfl rfl rfl
  · exact fun c hc => h.only_spaces c (List.mem_append_right _ (List.mem_cons_of_mem _ hc))
  · exact fun hHead => hAfter ' ' hHead rfl rfl
  · rw [← List.getLast?_cons_of_ne_nil hSecond,
      ← List.getLast?_append_of_ne_nil first (List.cons_ne_nil _ _)]
    exact h.stop

/-- A space between two texts is single if both of them are there. -/
theorem Spaced.append_space {first second : List Char} (hFirst : Spaced first)
    (hSecond : Spaced second) (hBefore : first ≠ []) (hAfter : second ≠ []) :
    Spaced (first ++ ' ' :: second) where
  only_spaces c hc hBlank := by
    rcases List.mem_append.mp hc with hc | hc
    · exact hFirst.only_spaces c hc hBlank
    · rcases List.mem_cons.mp hc with hSpace | hc
      · exact hSpace
      · exact hSecond.only_spaces c hc hBlank
  single := by
    refine List.isChain_append.mpr ⟨hFirst.single, hSecond.single.cons ?_, ?_⟩
    · rintro b hb - rfl
      exact hSecond.start hb
    · rintro a ha b - rfl
      exact absurd ha hFirst.stop
  start := by
    rw [List.head?_append_of_ne_nil _ hBefore]
    exact hFirst.start
  stop := by
    rw [List.getLast?_append_of_ne_nil first (List.cons_ne_nil _ _),
      List.getLast?_cons_of_ne_nil hAfter]
    exact hSecond.stop

theorem Spaced.suffix {text rest : List Char} (h : Spaced text) (hRest : rest <:+ text)
    (hStart : rest.head? ≠ some ' ') : Spaced rest where
  only_spaces c hc := h.only_spaces c (hRest.subset hc)
  single := h.single.suffix hRest
  start := hStart
  stop := by
    intro hLast
    obtain ⟨before, rfl⟩ := hRest
    exact h.stop (by rw [List.getLast?_append, hLast, Option.some_or])

/-- A text with normal spacing is its words with single spaces between them. -/
theorem Spaced.join_words {text : List Char} (h : Spaced text) :
    [' '].intercalate (words text) = text := by
  by_cases hSpace : ' ' ∈ text
  -- Any of its spaces will do: both sides are shorter and have normal spacing again.
  · obtain ⟨first, second, rfl⟩ := List.append_of_mem hSpace
    obtain ⟨hFirst, hSecond⟩ := h.ne_nil_of_append_space
    have hBefore := h.sides.1.join_words
    have hAfter := h.sides.2.join_words
    have hNotNil {side : List Char} (hJoin : [' '].intercalate (words side) = side)
        (hSide : side ≠ []) : words side ≠ [] := by
      intro hNil
      rw [hNil, List.intercalate_nil] at hJoin
      exact hSide hJoin.symm
    rw [words_append_blank isBlank_space, intercalate_append ' ' (hNotNil hBefore hFirst)
      (hNotNil hAfter hSecond), hBefore, hAfter]
  · have hShown : ∀ c ∈ text, isBlank c = false := by
      intro c hc
      rw [← Bool.not_eq_true]
      exact fun hBlank => hSpace (h.only_spaces c hc hBlank ▸ hc)
    by_cases hNil : text = []
    · rw [hNil]
      rfl
    · rw [words_of_no_blank hNil hShown, List.intercalate_singleton]
termination_by text.length

theorem normalizeChars_eq_join (text : List Char) :
    normalizeChars text = [' '].intercalate (words text) := by
  rw [← words_normalizeChars, (spaced_normalizeChars text).join_words]

theorem normalizeChars_eq_iff (first second : List Char) :
    normalizeChars first = normalizeChars second ↔ words first = words second := by
  constructor
  · intro h
    rw [← words_normalizeChars first, h, words_normalizeChars]
  · intro h
    rw [normalizeChars_eq_join, h, ← normalizeChars_eq_join]

/-- A second space in a row is dropped. -/
theorem normalizeChars_two_spaces (first second : List Char) :
    normalizeChars (first ++ ' ' :: ' ' :: second) = normalizeChars (first ++ ' ' :: second) := by
  rw [normalizeChars_eq_iff, words_append_blank isBlank_space, words_append_blank isBlank_space,
    words_cons_blank isBlank_space]

/-- A space at the end is dropped. -/
theorem normalizeChars_space_last {text : List Char} (h : Spaced text) :
    normalizeChars (text ++ [' ']) = text := by
  have hWords : words (text ++ [' ']) = words text :=
    words_append_blanks (List.forall_mem_singleton.mpr isBlank_space) text
  rw [(normalizeChars_eq_iff _ _).mpr hWords, normalizeChars_of_spaced h]

/-- A text behind one space, its own or a new one; nothing stays nothing. -/
def afterSpace : List Char → List Char
  | [] => []
  | c :: rest => if c = ' ' then c :: rest else ' ' :: c :: rest

/-- Where a word is cut out of a text with normal spacing, one space is left between its sides, and
none at the end. -/
theorem normalizeChars_cut {before word after : List Char}
    (h : Spaced (before ++ ' ' :: (word ++ after))) :
    normalizeChars (before ++ ' ' :: after) = before ++ afterSpace after := by
  have hBefore := h.ne_nil_of_append_space.1
  obtain ⟨hFirst, hRest⟩ := h.sides
  cases after with
  | nil => rw [normalizeChars_space_last hFirst, afterSpace, List.append_nil]
  | cons c rest =>
    rw [afterSpace]
    split
    · rename_i hc
      subst hc
      have hLast := hRest.ne_nil_of_append_space.2
      rw [normalizeChars_two_spaces]
      exact normalizeChars_of_spaced (hFirst.append_space hRest.sides.2 hBefore hLast)
    · rename_i hc
      have hSecond : Spaced (c :: rest) := hRest.suffix (List.suffix_append _ _) (by simpa using hc)
      exact normalizeChars_of_spaced
        (hFirst.append_space hSecond hBefore (List.cons_ne_nil _ _))

/-- What becomes of a text in normal spacing. -/
structure WordsJoined (text : String) : Prop where
  runs : ∀ parts, Laid parts text.toList ↔ parts = words text.toList
  joined : normalize text = " ".intercalate ((words text.toList).map String.ofList)
  stable : normalize (normalize text) = normalize text
  kept : shown (normalize text).toList = shown text.toList
  same_iff : ∀ other, normalize text = normalize other ↔ words text.toList = words other.toList
  composed : ∀ gap other : String, gap ≠ "" → (∀ c ∈ gap.toList, isBlank c = true) →
    normalize (text ++ gap ++ other) = normalize (normalize text ++ " " ++ normalize other)

theorem normalize_eq_iff (first second : String) :
    normalize first = normalize second ↔ words first.toList = words second.toList := by
  rw [← String.toList_inj, toList_normalize, toList_normalize, normalizeChars_eq_iff]

theorem normalize_joins_words (text : String) : WordsJoined text where
  runs parts := laid_iff parts text.toList
  joined := by
    have hParts : ((words text.toList).map String.ofList).map String.toList = words text.toList := by
      simp only [List.map_map, Function.comp_def, String.toList_ofList, List.map_id']
    rw [← String.toList_inj, toList_normalize, normalizeChars_eq_join, String.toList_intercalate,
      hParts]
    rfl
  stable := by rw [normalize_eq_iff, toList_normalize, words_normalizeChars]
  kept := by rw [toList_normalize, shown_normalizeChars]
  same_iff := normalize_eq_iff text
  composed gap other hGap hBlanks := by
    have hNotNil : gap.toList ≠ [] := by simpa using hGap
    have hSpace : ∀ c ∈ " ".toList, isBlank c = true :=
      List.forall_mem_singleton.mpr isBlank_space
    rw [normalize_eq_iff]
    simp only [String.toList_append, toList_normalize]
    rw [words_append_gap hNotNil hBlanks, words_append_gap (by decide) hSpace,
      words_normalizeChars, words_normalizeChars]

/-- An ideographic space, a next line and a space that does not break part words like any blank. -/
theorem wide_blanks_joined :
    let text := "\u3000int\u0085 f"
    let gap := "\u00a0\t"
    let other := " ( x )\n"
    gap ≠ "" ∧ (∀ c ∈ gap.toList, isBlank c = true) ∧
      normalize (text ++ gap ++ other) = "int f ( x )" ∧
      normalize (text ++ gap ++ other) = normalize (normalize text ++ " " ++ normalize other) ∧
      WordsJoined text :=
  have hText : WordsJoined "\u3000int\u0085 f" := normalize_joins_words _
  have hBlanks : ∀ c ∈ "\u00a0\t".toList, isBlank c = true := List.all_eq_true.mp (by decide)
  ⟨by decide, hBlanks, by decide +kernel, hText.composed _ _ (by decide) hBlanks, hText⟩

end FunctionIndex.Text
