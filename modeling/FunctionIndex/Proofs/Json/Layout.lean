import FunctionIndex.Json.Parser
import FunctionIndex.Json.Printer
import FunctionIndex.Proofs.Json.Quoted
import FunctionIndex.Proofs.Text.Decimal
import FunctionIndex.Proofs.Text.Separated
import FunctionIndex.Text.Blank

/-! # Layout of written values

The compact and the indented form are one form with different blanks between its parts. The blanks
outside quoted text are found by a scan that knows where quoted text begins and ends; without them
only the compact form is left.
-/
namespace FunctionIndex.Json
set_option autoImplicit false

/-- What holds of every value without content, and of a container if of all that it contains. -/
theorem induction {motive : Json → Prop} (null : motive .null)
    (bool : ∀ value, motive (.bool value)) (integer : ∀ value, motive (.integer value))
    (fraction : ∀ literal, motive (.fraction literal)) (text : ∀ value, motive (.text value))
    (list : ∀ items, (∀ item ∈ items, motive item) → motive (.list items))
    (object : ∀ fields, (∀ field ∈ fields, motive field.2) → motive (.object fields))
    (value : Json) : motive value :=
  @Json.rec motive (fun items => ∀ item ∈ items, motive item)
    (fun fields => ∀ field ∈ fields, motive field.2) (fun field => motive field.2)
    null bool integer fraction text list object
    (fun _ h => absurd h List.not_mem_nil)
    (fun _ _ hHead hTail => List.forall_mem_cons.mpr ⟨hHead, hTail⟩)
    (fun _ h => absurd h List.not_mem_nil)
    (fun _ _ hHead hTail => List.forall_mem_cons.mpr ⟨hHead, hTail⟩) (fun _ _ h => h) value

/-- All numbers in a value are integers. -/
inductive IsWhole : Json → Prop
  | null : IsWhole .null
  | bool (value : Bool) : IsWhole (.bool value)
  | integer (value : Int) : IsWhole (.integer value)
  | text (value : String) : IsWhole (.text value)
  | list (items : List Json) (h : ∀ item ∈ items, IsWhole item) : IsWhole (.list items)
  | object (fields : List (String × Json)) (h : ∀ field ∈ fields, IsWhole field.2) :
      IsWhole (.object fields)

def isAtom : Json → Bool
  | .list (_ :: _) => false
  | .object (_ :: _) => false
  | _ => true

/-- The blanks of a written value: before an item, a field or a closing bracket at some depth, and
after a colon. -/
structure Layout where
  gap : Nat → List Char
  afterColon : List Char
  gap_layout : ∀ depth, ∀ c ∈ gap depth, isLayout c = true
  afterColon_layout : ∀ c ∈ afterColon, isLayout c = true

namespace Layout

def tight : Layout where
  gap _ := []
  afterColon := []
  gap_layout _ _ h := absurd h List.not_mem_nil
  afterColon_layout _ h := absurd h List.not_mem_nil

mutual

def valueChars (layout : Layout) (depth : Nat) : Json → List Char
  | .list (item :: items) =>
    '[' :: (layout.gap (depth + 1) ++ (valueChars layout (depth + 1) item ++
      itemsChars layout depth items))
  | .object (field :: fields) =>
    '\x7b' :: (layout.gap (depth + 1) ++ (Quoted.quote field.1.toList ++
      ':' :: (layout.afterColon ++ (valueChars layout (depth + 1) field.2 ++
        fieldsChars layout depth fields))))
  | value => atomChars value

def itemsChars (layout : Layout) (depth : Nat) : List Json → List Char
  | [] => layout.gap depth ++ [']']
  | item :: items =>
    ',' :: (layout.gap (depth + 1) ++ (valueChars layout (depth + 1) item ++
      itemsChars layout depth items))

def fieldsChars (layout : Layout) (depth : Nat) : List (String × Json) → List Char
  | [] => layout.gap depth ++ ['\x7d']
  | field :: fields =>
    ',' :: (layout.gap (depth + 1) ++ (Quoted.quote field.1.toList ++
      ':' :: (layout.afterColon ++ (valueChars layout (depth + 1) field.2 ++
        fieldsChars layout depth fields))))

end

/-- The equations of a printer with this layout. -/
structure Prints (layout : Layout) (value : Nat → Json → List Char)
    (items : Nat → List Json → List Char) (fields : Nat → List (String × Json) → List Char) :
    Prop where
  atom : ∀ depth json, isAtom json = true → value depth json = atomChars json
  list : ∀ depth item rest, value depth (.list (item :: rest)) =
    '[' :: (layout.gap (depth + 1) ++ (value (depth + 1) item ++ items depth rest))
  object : ∀ depth field rest, value depth (.object (field :: rest)) =
    '\x7b' :: (layout.gap (depth + 1) ++ (Quoted.quote field.1.toList ++
      ':' :: (layout.afterColon ++ (value (depth + 1) field.2 ++ fields depth rest))))
  noItems : ∀ depth, items depth [] = layout.gap depth ++ [']']
  items : ∀ depth item rest, items depth (item :: rest) =
    ',' :: (layout.gap (depth + 1) ++ (value (depth + 1) item ++ items depth rest))
  noFields : ∀ depth, fields depth [] = layout.gap depth ++ ['\x7d']
  fields : ∀ depth field rest, fields depth (field :: rest) =
    ',' :: (layout.gap (depth + 1) ++ (Quoted.quote field.1.toList ++
      ':' :: (layout.afterColon ++ (value (depth + 1) field.2 ++ fields depth rest))))

section

variable {layout : Layout} {value : Nat → Json → List Char} {items : Nat → List Json → List Char}
  {fields : Nat → List (String × Json) → List Char}

theorem Prints.eq_itemsChars (h : layout.Prints value items fields) (depth : Nat)
    {content : List Json}
    (hContent : ∀ item ∈ content, ∀ depth, value depth item = layout.valueChars depth item) :
    items depth content = layout.itemsChars depth content := by
  induction content with
  | nil => rw [h.noItems, itemsChars]
  | cons item rest ih =>
    obtain ⟨hItem, hRest⟩ := List.forall_mem_cons.mp hContent
    rw [h.items, itemsChars, hItem, ih hRest]

theorem Prints.eq_fieldsChars (h : layout.Prints value items fields) (depth : Nat)
    {content : List (String × Json)}
    (hContent : ∀ field ∈ content, ∀ depth, value depth field.2 = layout.valueChars depth field.2) :
    fields depth content = layout.fieldsChars depth content := by
  induction content with
  | nil => rw [h.noFields, fieldsChars]
  | cons field rest ih =>
    obtain ⟨hField, hRest⟩ := List.forall_mem_cons.mp hContent
    rw [h.fields, fieldsChars, hField, ih hRest]

theorem Prints.eq_valueChars (h : layout.Prints value items fields) (json : Json) :
    ∀ depth, value depth json = layout.valueChars depth json := by
  induction json using Json.induction with
  | list content hContent =>
    intro depth
    cases content with
    | nil => exact h.atom depth _ rfl
    | cons item rest =>
      obtain ⟨hItem, hRest⟩ := List.forall_mem_cons.mp hContent
      rw [h.list, valueChars, hItem, h.eq_itemsChars depth hRest]
  | object content hContent =>
    intro depth
    cases content with
    | nil => exact h.atom depth _ rfl
    | cons field rest =>
      obtain ⟨hField, hRest⟩ := List.forall_mem_cons.mp hContent
      rw [h.object, valueChars, hField, h.eq_fieldsChars depth hRest]
  | _ => exact fun depth => h.atom depth _ rfl

end

theorem tight_prints :
    tight.Prints (fun _ => compactChars) (fun _ => compactItems) (fun _ => compactFields) where
  atom _ json h := by
    unfold isAtom at h
    split at h
    · cases h
    · cases h
    · rw [compactChars] <;> assumption
  list _ _ _ := compactChars.eq_1 ..
  object _ _ _ := compactChars.eq_2 ..
  noItems _ := rfl
  items _ _ _ := rfl
  noFields _ := rfl
  fields _ _ _ := rfl

theorem compactChars_eq (json : Json) (depth : Nat) :
    compactChars json = tight.valueChars depth json :=
  tight_prints.eq_valueChars json depth

end Layout

theorem compactItems_eq (items : List Json) :
    compactItems items = (items.flatMap fun item => ',' :: compactChars item) ++ [']'] := by
  induction items with
  | nil => rfl
  | cons item items ih =>
    rw [compactItems, ih, List.flatMap_cons, List.cons_append, List.cons_append, List.append_assoc]

/-- A field as it stands in compact form. -/
def memberChars (field : String × Json) : List Char :=
  Quoted.quote field.1.toList ++ ':' :: compactChars field.2

theorem compactFields_eq (fields : List (String × Json)) :
    compactFields fields = (fields.flatMap fun field => ',' :: memberChars field) ++ ['\x7d'] := by
  induction fields with
  | nil => rfl
  | cons field fields ih =>
    rw [compactFields, ih, List.flatMap_cons, memberChars, List.cons_append, List.cons_append,
      List.append_assoc, List.append_assoc, List.cons_append]

theorem compactChars_list (items : List Json) :
    compactChars (.list items) =
      '[' :: ([','].intercalate (items.map compactChars) ++ [']']) := by
  cases items with
  | nil => rfl
  | cons item items =>
    rw [compactChars, compactItems_eq, Text.intercalate_map_cons, List.append_assoc]

theorem compactChars_object (fields : List (String × Json)) :
    compactChars (.object fields) =
      '\x7b' :: ([','].intercalate (fields.map memberChars) ++ ['\x7d']) := by
  cases fields with
  | nil => rfl
  | cons field fields =>
    rw [compactChars, compactFields_eq, Text.intercalate_map_cons, memberChars, List.append_assoc,
      List.append_assoc, List.cons_append]

theorem isControl_of_mem_joined {parts : List (List Char)}
    (h : ∀ part ∈ parts, ∀ c ∈ part, Quoted.isControl c = false) :
    ∀ c ∈ [','].intercalate parts, Quoted.isControl c = false := by
  cases parts with
  | nil => exact fun _ h => absurd h List.not_mem_nil
  | cons first rest =>
    obtain ⟨hFirst, hRest⟩ := List.forall_mem_cons.mp h
    have hJoined := Text.intercalate_map_cons ',' id first rest
    rw [List.map_id] at hJoined
    intro c hc
    rw [hJoined] at hc
    rcases List.mem_append.mp hc with hc | hc
    · exact hFirst c hc
    · obtain ⟨part, hPart, hc⟩ := List.mem_flatMap.mp hc
      rcases List.mem_cons.mp hc with rfl | hc
      · rfl
      · exact hRest part hPart c hc

theorem isControl_of_mem_digits (n : Nat) :
    ∀ c ∈ Text.Decimal.digits n, Quoted.isControl c = false := by
  intro c hc
  have hShown := Text.Decimal.forall_isDigit (p := fun c => !Quoted.isControl c) (by decide)
    (Text.Decimal.isDigit_of_mem_digits hc)
  simpa using hShown

/-- The compact form shows no control character. -/
theorem isControl_of_mem_compactChars {value : Json} (h : IsWhole value) :
    ∀ c ∈ compactChars value, Quoted.isControl c = false := by
  have hEnclosed {start stop : Char} (hStart : Quoted.isControl start = false)
      (hStop : Quoted.isControl stop = false) {inner : List Char}
      (hInner : ∀ c ∈ inner, Quoted.isControl c = false) :
      ∀ c ∈ start :: (inner ++ [stop]), Quoted.isControl c = false :=
    List.forall_mem_cons.mpr ⟨hStart,
      List.forall_mem_append.mpr ⟨hInner, List.forall_mem_singleton.mpr hStop⟩⟩
  induction h with
  | null => exact fun _ hc => Quoted.isControl_of_all (by decide) hc
  | bool value => cases value <;> exact fun _ hc => Quoted.isControl_of_all (by decide) hc
  | integer value =>
    cases value with
    | ofNat n => exact isControl_of_mem_digits n
    | negSucc n => exact List.forall_mem_cons.mpr ⟨rfl, isControl_of_mem_digits (n + 1)⟩
  | text value => exact fun _ hc => Quoted.isControl_of_mem_quote hc
  | list items _ ih =>
    rw [compactChars_list]
    refine hEnclosed rfl rfl (isControl_of_mem_joined ?_)
    exact List.forall_mem_map.mpr ih
  | object fields _ ih =>
    rw [compactChars_object]
    refine hEnclosed rfl rfl (isControl_of_mem_joined ?_)
    refine List.forall_mem_map.mpr fun field hField => List.forall_mem_append.mpr ⟨?_, ?_⟩
    · exact fun _ hc => Quoted.isControl_of_mem_quote hc
    · exact List.forall_mem_cons.mpr ⟨rfl, ih field hField⟩

end FunctionIndex.Json
