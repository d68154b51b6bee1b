import FunctionIndex.Proofs.Json.Layout
import FunctionIndex.Proofs.Text.Decimal

/-! # Reading written values

A written value without fractions is read back from the front of any text, if a number at its end
cannot go on in what follows. This holds for every layout, so for both printed forms.
-/
namespace FunctionIndex.Json
set_option autoImplicit false

theorem skipLayout_append {gap : List Char} (h : ∀ c ∈ gap, isLayout c = true) (rest : List Char) :
    skipLayout (gap ++ rest) = skipLayout rest :=
  List.dropWhile_append_of_pos h

theorem skipLayout_cons {c : Char} (h : isLayout c = false) (rest : List Char) :
    skipLayout (c :: rest) = c :: rest :=
  List.dropWhile_cons_of_neg (by simp [h])

/-- What can follow a number: nothing that belongs to it. -/
def EndsNumber (rest : List Char) : Prop :=
  ∀ c ∈ rest.head?, c.isDigit = false ∧ c ≠ '.' ∧ c ≠ 'e' ∧ c ≠ 'E'

theorem digits?_digits (n : Nat) {rest : List Char} (h : EndsNumber rest) :
    digits? (Text.Decimal.digits n ++ rest) = some (Text.Decimal.digits n, rest) := by
  have hAll : ∀ c ∈ Text.Decimal.digits n, c.isDigit = true :=
    fun _ hc => Text.Decimal.isDigit_of_mem_digits hc
  have hStop : rest.takeWhile Char.isDigit = [] ∧ rest.dropWhile Char.isDigit = rest := by
    cases rest with
    | nil => exact ⟨rfl, rfl⟩
    | cons c rest =>
      have hDigit := (h c rfl).1
      exact ⟨List.takeWhile_cons_of_neg (by simp [hDigit]),
        List.dropWhile_cons_of_neg (by simp [hDigit])⟩
  rw [digits?, List.takeWhile_append_of_pos hAll, List.dropWhile_append_of_pos hAll, hStop.1,
    hStop.2, List.append_nil]
  split
  · rename_i hNil
    exact absurd hNil Nat.toDigits_ne_nil
  · rfl

theorem fractionPart?_of_endsNumber {rest : List Char} (h : EndsNumber rest) :
    fractionPart? rest = some ([], rest) := by
  unfold fractionPart?
  split
  · exact absurd rfl (h '.' rfl).2.1
  · rfl

theorem exponentPart?_of_endsNumber {rest : List Char} (h : EndsNumber rest) :
    exponentPart? rest = some ([], rest) := by
  cases rest with
  | nil => rfl
  | cons c rest =>
    obtain ⟨-, -, hLower, hUpper⟩ := h c rfl
    exact if_neg (not_or.mpr ⟨hLower, hUpper⟩)

theorem number?_digits (negative : Bool) (n : Nat) {rest : List Char} (h : EndsNumber rest)
    (hSigned : negative = true → 0 < n) :
    number? negative (Text.Decimal.digits n ++ rest) =
      some (.integer (if negative then -n else n), rest) := by
  have hZero : ¬((Text.Decimal.digits n).head? = some '0' ∧ (Text.Decimal.digits n).length ≠ 1) := by
    rintro ⟨hHead, hLength⟩
    cases n with
    | zero => exact hLength rfl
    | succ n => exact Text.Decimal.head?_digits_ne_zero (Nat.succ_pos n) hHead
  have hSign : (negative && n == 0) = false := by
    cases negative with
    | false => rfl
    | true => simpa using Nat.ne_of_gt (hSigned rfl)
  rw [number?, digits?_digits n h]
  simp only [Option.bind_eq_bind, Option.bind_some]
  rw [if_neg hZero, fractionPart?_of_endsNumber h]
  simp only [Option.bind_some, exponentPart?_of_endsNumber h,
    Text.Decimal.value_digits, hSign]
  rfl

theorem value?_gap {gap : List Char} (h : ∀ c ∈ gap, isLayout c = true) (fuel : Nat)
    (input : List Char) : value? fuel (gap ++ input) = value? fuel input := by
  cases fuel with
  | zero => rfl
  | succ fuel => rw [value?, value?, skipLayout_append h]

theorem items?_gap {gap : List Char} (h : ∀ c ∈ gap, isLayout c = true) (fuel : Nat)
    (input : List Char) : items? fuel (gap ++ input) = items? fuel input := by
  cases fuel with
  | zero => rfl
  | succ fuel => rw [items?, items?, value?_gap h]

theorem fields?_gap {gap : List Char} (h : ∀ c ∈ gap, isLayout c = true) (fuel : Nat)
    (input : List Char) : fields? fuel (gap ++ input) = fields? fuel input := by
  cases fuel with
  | zero => rfl
  | succ fuel => rw [fields?, fields?, key?, key?, skipLayout_append h]

theorem value?_digits (fuel : Nat) (n : Nat) {rest : List Char} (h : EndsNumber rest) :
    value? (fuel + 1) (Text.Decimal.digits n ++ rest) = some (.integer n, rest) := by
  have hNumber := number?_digits false n h (fun h => absurd h (by decide))
  obtain ⟨c, digits, hDigits, hDigit⟩ := Text.Decimal.digits_eq_cons n
  have hBlank : isLayout c = false := by
    simpa using Text.Decimal.forall_isDigit (p := fun c => !isLayout c) (by decide) hDigit
  rw [hDigits] at hNumber ⊢
  rw [value?, List.cons_append, skipLayout_cons hBlank]
  -- A digit is none of the characters that announce another kind of value.
  split
  case h_8 => exact hNumber
  all_goals
    rename_i hInput
    obtain ⟨rfl, -⟩ := List.cons.inj hInput
    exact absurd hDigit (by decide)

theorem value?_integer (fuel : Nat) (value : Int) {rest : List Char} (h : EndsNumber rest) :
    value? (fuel + 1) (integerChars value ++ rest) = some (.integer value, rest) := by
  cases value with
  | ofNat n => exact value?_digits fuel n h
  | negSucc n => exact number?_digits true (n + 1) h fun _ => Nat.succ_pos n

theorem value?_quote (fuel : Nat) (text : String) (rest : List Char) :
    value? (fuel + 1) (Quoted.quote text.toList ++ rest) = some (.text text, rest) := by
  have hDecode := Quoted.decode?_encode text.toList rest
  rw [Quoted.quote, List.cons_append, List.append_assoc, value?, skipLayout_cons rfl]
  simp only [List.singleton_append, hDecode, Option.map_some, String.ofList_toList]

theorem value?_atomChars (fuel : Nat) {value : Json} (hWhole : IsWhole value)
    (hAtom : isAtom value = true) {rest : List Char} (h : EndsNumber rest) :
    value? (fuel + 1) (atomChars value ++ rest) = some (value, rest) := by
  cases hWhole with
  | null => rfl
  | bool value => cases value <;> rfl
  | integer value => exact value?_integer fuel value h
  | text value => exact value?_quote fuel value rest
  | list items _ =>
    cases items with
    | nil => rfl
    | cons => cases hAtom
  | object fields _ =>
    cases fields with
    | nil => rfl
    | cons => cases hAtom

theorem endsNumber_cons {c : Char} (h : c = ',' ∨ c = ']' ∨ c = '\x7d' ∨ isLayout c = true)
    (rest : List Char) : EndsNumber (c :: rest) := by
  rintro _ ⟨⟩
  rcases h with rfl | rfl | rfl | h
  · decide
  · decide
  · decide
  · simp only [isLayout, Bool.or_eq_true, decide_eq_true_eq] at h
    rcases h with ((rfl | rfl) | rfl) | rfl <;> decide

theorem endsNumber_nil : EndsNumber [] := fun _ h => by cases h

theorem endsNumber_gap {gap : List Char} (h : ∀ c ∈ gap, isLayout c = true) {rest : List Char}
    (hRest : EndsNumber rest) : EndsNumber (gap ++ rest) := by
  cases gap with
  | nil => exact hRest
  | cons c gap => exact endsNumber_cons (.inr (.inr (.inr (h c List.mem_cons_self)))) _

/-- A text that begins as a value does: with no blank, and not with the bracket that ends a list. -/
def Opens (text : List Char) : Prop :=
  ∃ c rest, text = c :: rest ∧ isLayout c = false ∧ c ≠ ']'

theorem Opens.append {text : List Char} (h : Opens text) (rest : List Char) :
    Opens (text ++ rest) := by
  obtain ⟨c, tail, rfl, hBlank, hBracket⟩ := h
  exact ⟨c, tail ++ rest, rfl, hBlank, hBracket⟩

theorem value?_list {gap text : List Char} (h : ∀ c ∈ gap, isLayout c = true) (hText : Opens text)
    (fuel : Nat) :
    value? (fuel + 1) ('[' :: (gap ++ text)) =
      (items? fuel text).map fun part => (.list part.1, part.2) := by
  obtain ⟨c, rest, rfl, hBlank, hBracket⟩ := hText
  rw [value?, skipLayout_cons rfl]
  simp only [skipLayout_append h, skipLayout_cons hBlank]
  split
  · rename_i hInput
    exact absurd (List.cons.inj hInput).1 hBracket
  · rfl

theorem value?_object {gap : List Char} (h : ∀ c ∈ gap, isLayout c = true) (text : List Char)
    (fuel : Nat) :
    value? (fuel + 1) ('\x7b' :: (gap ++ '"' :: text)) =
      (fields? fuel ('"' :: text)).map fun part => (.object part.1, part.2) := by
  rw [value?, skipLayout_cons rfl]
  simp only [skipLayout_append h]
  rfl

theorem key?_quote (key : String) (rest : List Char) :
    key? (Quoted.quote key.toList ++ ':' :: rest) = some (key, rest) := by
  have hDecode := Quoted.decode?_encode key.toList (':' :: rest)
  rw [Quoted.quote, List.cons_append, List.append_assoc, key?, skipLayout_cons rfl]
  simp only [List.singleton_append, hDecode, Option.bind_eq_bind, Option.bind_some,
    skipLayout_cons (show isLayout ':' = false from rfl), String.ofList_toList]
  rfl

namespace Layout

variable (layout : Layout)

theorem valueChars_opens {value : Json} (h : IsWhole value) (depth : Nat) :
    Opens (layout.valueChars depth value) := by
  have hDigits (n : Nat) : Opens (Text.Decimal.digits n) := by
    obtain ⟨c, digits, hDigits, hDigit⟩ := Text.Decimal.digits_eq_cons n
    have hOpens : (!isLayout c && c != ']') = true :=
      Text.Decimal.forall_isDigit (p := fun c => !isLayout c && c != ']') (by decide) hDigit
    rw [Bool.and_eq_true, Bool.not_eq_true', bne_iff_ne] at hOpens
    exact ⟨c, digits, hDigits, hOpens.1, hOpens.2⟩
  cases h with
  | null => exact ⟨'n', _, rfl, rfl, by decide⟩
  | bool value => cases value <;> exact ⟨_, _, rfl, rfl, by decide⟩
  | integer value =>
    cases value with
    | ofNat n => exact hDigits n
    | negSucc n => exact ⟨'-', _, rfl, rfl, by decide⟩
  | text value => exact ⟨'"', _, rfl, rfl, by decide⟩
  | list items _ => cases items <;> exact ⟨'[', _, rfl, rfl, by decide⟩
  | object fields _ => cases fields <;> exact ⟨'\x7b', _, rfl, rfl, by decide⟩

/-- A value at any depth is read from the front of every text that it can stand before. -/
def Reads (value : Json) : Prop :=
  ∀ depth fuel rest, EndsNumber rest → (layout.valueChars depth value).length ≤ fuel →
    value? fuel (layout.valueChars depth value ++ rest) = some (value, rest)

theorem items?_itemsChars (depth : Nat) {item : Json} {items : List Json} (hItem : layout.Reads item)
    (hItems : ∀ item ∈ items, layout.Reads item) (fuel : Nat) (rest : List Char)
    (hFuel : (layout.valueChars (depth + 1) item ++ layout.itemsChars depth items).length ≤ fuel) :
    items? fuel (layout.valueChars (depth + 1) item ++ (layout.itemsChars depth items ++ rest)) =
      some (item :: items, rest) := by
  rw [List.length_append] at hFuel
  induction items generalizing item fuel with
  | nil =>
    rw [itemsChars, List.length_append, List.length_singleton] at hFuel
    obtain ⟨fuel, rfl⟩ := Nat.exists_eq_add_one_of_ne_zero (show fuel ≠ 0 by omega)
    have hEnd : EndsNumber (layout.gap depth ++ ']' :: rest) :=
      endsNumber_gap (layout.gap_layout depth) (endsNumber_cons (by decide) rest)
    rw [itemsChars, List.append_assoc, List.singleton_append, items?,
      hItem (depth + 1) fuel _ hEnd (by omega)]
    simp only [Option.bind_eq_bind, Option.bind_some, skipLayout_append (layout.gap_layout depth)]
    rfl
  | cons next items ih =>
    obtain ⟨hNext, hItems⟩ := List.forall_mem_cons.mp hItems
    rw [itemsChars, List.length_cons, List.length_append, List.length_append] at hFuel
    obtain ⟨fuel, rfl⟩ := Nat.exists_eq_add_one_of_ne_zero (show fuel ≠ 0 by omega)
    have hRest := ih hNext hItems fuel (by omega)
    rw [itemsChars, List.cons_append, items?,
      hItem (depth + 1) fuel _ (endsNumber_cons (.inl rfl) _) (by omega), List.append_assoc,
      List.append_assoc]
    simp only [Option.bind_eq_bind, Option.bind_some,
      skipLayout_cons (show isLayout ',' = false from rfl),
      items?_gap (layout.gap_layout (depth + 1)), hRest]
    rfl

theorem fields?_fieldsChars (depth : Nat) {field : String × Json} {fields : List (String × Json)}
    (hField : layout.Reads field.2) (hFields : ∀ field ∈ fields, layout.Reads field.2) (fuel : Nat)
    (rest : List Char)
    (hFuel :
      (layout.valueChars (depth + 1) field.2 ++ layout.fieldsChars depth fields).length ≤ fuel) :
    fields? fuel (Quoted.quote field.1.toList ++ ':' :: (layout.afterColon ++
      (layout.valueChars (depth + 1) field.2 ++ (layout.fieldsChars depth fields ++ rest)))) =
        some (field :: fields, rest) := by
  rw [List.length_append] at hFuel
  induction fields generalizing field fuel with
  | nil =>
    rw [fieldsChars, List.length_append, List.length_singleton] at hFuel
    obtain ⟨fuel, rfl⟩ := Nat.exists_eq_add_one_of_ne_zero (show fuel ≠ 0 by omega)
    have hEnd : EndsNumber (layout.gap depth ++ '\x7d' :: rest) :=
      endsNumber_gap (layout.gap_layout depth) (endsNumber_cons (by decide) rest)
    have hValue := hField (depth + 1) fuel _ hEnd (by omega)
    rw [fieldsChars, List.append_assoc, List.singleton_append, fields?, key?_quote]
    simp only [Option.bind_eq_bind, Option.bind_some, value?_gap layout.afterColon_layout, hValue,
      skipLayout_append (layout.gap_layout depth)]
    rfl
  | cons next fields ih =>
    obtain ⟨hNext, hFields⟩ := List.forall_mem_cons.mp hFields
    rw [fieldsChars, List.length_cons, List.length_append, List.length_append, List.length_cons,
      List.length_append, List.length_append] at hFuel
    obtain ⟨fuel, rfl⟩ := Nat.exists_eq_add_one_of_ne_zero (show fuel ≠ 0 by omega)
    have hRest := ih hNext hFields fuel (by omega)
    have hValue := fun rest => hField (depth + 1) fuel (',' :: rest)
      (endsNumber_cons (.inl rfl) _) (by omega)
    rw [fieldsChars, List.cons_append, fields?, key?_quote]
    simp only [Option.bind_eq_bind, Option.bind_some, value?_gap layout.afterColon_layout, hValue,
      skipLayout_cons (show isLayout ',' = false from rfl), List.append_assoc, List.cons_append,
      fields?_gap (layout.gap_layout (depth + 1)), hRest]
    rfl

theorem reads_of_isAtom {value : Json} (hWhole : IsWhole value) (hAtom : isAtom value = true)
    (hChars : ∀ depth, layout.valueChars depth value = atomChars value) : layout.Reads value := by
  intro depth fuel rest hRest hFuel
  obtain ⟨c, tail, hOpens, -⟩ := layout.valueChars_opens hWhole depth
  rw [hOpens, List.length_cons] at hFuel
  obtain ⟨fuel, rfl⟩ := Nat.exists_eq_add_one_of_ne_zero (show fuel ≠ 0 by omega)
  rw [hChars, value?_atomChars fuel hWhole hAtom hRest]

theorem reads_of_isWhole {value : Json} (h : IsWhole value) : layout.Reads value := by
  induction h with
  | list items hContent ih =>
    cases items with
    | nil => exact layout.reads_of_isAtom (.list [] hContent) rfl fun _ => rfl
    | cons item items =>
      intro depth fuel rest hRest hFuel
      obtain ⟨hItem, hItems⟩ := List.forall_mem_cons.mp ih
      have hOpens := (layout.valueChars_opens (hContent item List.mem_cons_self) (depth + 1)).append
        (layout.itemsChars depth items ++ rest)
      rw [valueChars, List.length_cons, List.length_append] at hFuel
      obtain ⟨fuel, rfl⟩ := Nat.exists_eq_add_one_of_ne_zero (show fuel ≠ 0 by omega)
      rw [valueChars, List.cons_append, List.append_assoc, List.append_assoc,
        value?_list (layout.gap_layout (depth + 1)) hOpens,
        layout.items?_itemsChars depth hItem hItems fuel rest (by omega)]
      rfl
  | object fields hContent ih =>
    cases fields with
    | nil => exact layout.reads_of_isAtom (.object [] hContent) rfl fun _ => rfl
    | cons field fields =>
      intro depth fuel rest hRest hFuel
      obtain ⟨hField, hFields⟩ := List.forall_mem_cons.mp ih
      rw [valueChars, List.length_cons, List.length_append, List.length_append, List.length_cons,
        List.length_append] at hFuel
      obtain ⟨fuel, rfl⟩ := Nat.exists_eq_add_one_of_ne_zero (show fuel ≠ 0 by omega)
      have hRead := layout.fields?_fieldsChars depth hField hFields fuel rest (by omega)
      rw [Quoted.quote] at hRead
      rw [valueChars, Quoted.quote]
      simp only [List.cons_append, List.append_assoc] at hRead ⊢
      rw [value?_object (layout.gap_layout (depth + 1)), hRead]
      rfl
  | null => exact layout.reads_of_isAtom .null rfl fun _ => rfl
  | bool value => exact layout.reads_of_isAtom (.bool value) rfl fun _ => rfl
  | integer value => exact layout.reads_of_isAtom (.integer value) rfl fun _ => rfl
  | text value => exact layout.reads_of_isAtom (.text value) rfl fun _ => rfl

theorem parse?_valueChars {value : Json} (h : IsWhole value) (gap : List Char)
    (hGap : ∀ c ∈ gap, isLayout c = true) :
    parse? (String.ofList (layout.valueChars 0 value ++ gap)) = some value := by
  have hEnd := endsNumber_gap hGap endsNumber_nil
  have hBlank := skipLayout_append hGap []
  rw [List.append_nil] at hEnd hBlank
  have hValue := layout.reads_of_isWhole h 0 ((layout.valueChars 0 value ++ gap).length + 1) gap hEnd
    (by rw [List.length_append]; omega)
  rw [parse?, String.toList_ofList]
  simp only [hValue, Option.bind_eq_bind, Option.bind_some, hBlank]
  rfl

end Layout

theorem parse?_compact {value : Json} (h : IsWhole value) : parse? value.compact = some value := by
  have hParse := Layout.tight.parse?_valueChars h [] fun _ h => absurd h List.not_mem_nil
  rwa [List.append_nil, ← Layout.compactChars_eq] at hParse

end FunctionIndex.Json
