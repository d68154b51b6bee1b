import FunctionIndex.Proofs.Json.RoundTrip
import FunctionIndex.Proofs.Report.Entry
import Mathlib.Data.List.Forall2
import Mathlib.Data.List.Nodup

/-! # Forms of an entry

An entry can be read from an object with its keys in any order and among others, or from a list of
its parts in writing order; absent texts may be null or left out, and a property may be its keyword
or an object. All forms of an entry are read as that entry, and nothing else is read at all.
-/
namespace FunctionIndex

namespace Json
set_option autoImplicit false

theorem lookup_cons (key : String) (field : String × Json) (fields : List (String × Json)) :
    lookup key (field :: fields) =
      (lookup key fields).or (if field.1 = key then some field.2 else none) := by
  by_cases hKey : field.1 = key
  · rw [if_pos hKey, lookup, lookup, latest]
    split
    · rename_i hLater
      obtain ⟨other, hOther, hSame⟩ := List.any_eq_true.mp hLater
      have hSome : ((latest fields).find? (·.1 == key)).isSome = true :=
        List.find?_isSome.mpr ⟨other, hOther, hKey ▸ hSame⟩
      obtain ⟨found, hFound⟩ := Option.isSome_iff_exists.mp hSome
      rw [hFound, Option.map_some, Option.some_or]
    · rename_i hLater
      have hNone : (latest fields).find? (·.1 == key) = none := by
        rw [List.find?_eq_none]
        intro other hOther hSame
        exact hLater (List.any_eq_true.mpr ⟨other, hOther, hKey.symm ▸ hSame⟩)
      rw [hNone, List.find?_cons_of_pos (by simpa using hKey), Option.map_none, Option.none_or,
        Option.map_some]
  · rw [if_neg hKey, Option.or_none, lookup_cons_of_ne hKey]

theorem lookup_append (key : String) (fields fields' : List (String × Json)) :
    lookup key (fields ++ fields') = (lookup key fields').or (lookup key fields) := by
  induction fields with
  | nil => exact (Option.or_none).symm
  | cons field fields ih => rw [List.cons_append, lookup_cons, lookup_cons, ih, Option.or_assoc]

/-- Fields with other keys do not matter. -/
theorem lookup_filter {kept : String × Json → Bool} {key : String}
    (hKept : ∀ field, field.1 = key → kept field = true) (fields : List (String × Json)) :
    lookup key (fields.filter kept) = lookup key fields := by
  induction fields with
  | nil => rfl
  | cons field fields ih =>
    by_cases hField : kept field = true
    · rw [List.filter_cons_of_pos hField, lookup_cons, lookup_cons, ih]
    · have hOther : field.1 ≠ key := fun hKey => hField (hKept field hKey)
      rw [List.filter_cons_of_neg hField, lookup_cons_of_ne hOther, ih]

theorem lookup_eq_some_iff_of_nodup {fields : List (String × Json)}
    (h : (fields.map (·.1)).Nodup) (key : String) (value : Json) :
    lookup key fields = some value ↔ (key, value) ∈ fields := by
  rw [lookup_of_nodup h, Option.map_eq_some_iff]
  constructor
  · rintro ⟨field, hField, rfl⟩
    have hKey : field.1 = key := by simpa using List.find?_some hField
    exact hKey ▸ List.mem_of_find?_eq_some hField
  · intro hMem
    have hSome : (fields.find? (·.1 == key)).isSome = true :=
      List.find?_isSome.mpr ⟨(key, value), hMem, beq_self_eq_true key⟩
    obtain ⟨field, hField⟩ := Option.isSome_iff_exists.mp hSome
    have hKey : field.1 = key := by simpa using List.find?_some hField
    have hSame := List.inj_on_of_nodup_map h (List.mem_of_find?_eq_some hField) hMem hKey
    exact ⟨field, hField, congrArg Prod.snd hSame⟩

/-- Without a repeated key the order of the fields does not matter. -/
theorem lookup_of_perm {fields fields' : List (String × Json)} (hPerm : fields.Perm fields')
    (h : (fields'.map (·.1)).Nodup) (key : String) : lookup key fields = lookup key fields' := by
  have hOther : (fields.map (·.1)).Nodup := (hPerm.map (·.1)).nodup_iff.mpr h
  apply Option.ext
  intro value
  rw [lookup_eq_some_iff_of_nodup hOther, lookup_eq_some_iff_of_nodup h, hPerm.mem_iff]

theorem text?_eq_some_iff (value : Json) (text : String) :
    value.text? = some text ↔ value = .text text := by
  cases value <;> simp [text?]

end Json

namespace Property
set_option autoImplicit false

/-- The values that stand for a property. -/
inductive Spells (property : Property) : Json → Prop
  | keyword : Spells property (.text property.keyword)
  | object (fields : List (String × Json)) :
    Json.latest fields = [(property.keyword, .null)] → Spells property (.object fields)

theorem ofKeyword?_eq_some_iff (word : String) (property : Property) :
    ofKeyword? word = some property ↔ word = property.keyword := by
  constructor
  · intro h
    have hKeyword := List.find?_some h
    exact (beq_iff_eq.mp hKeyword).symm
  · rintro rfl
    exact ofKeyword?_keyword property

theorem ofJson?_eq_some_iff (value : Json) (property : Property) :
    ofJson? value = some property ↔ property.Spells value := by
  constructor
  · intro h
    unfold ofJson? at h
    split at h
    · rw [(ofKeyword?_eq_some_iff _ _).mp h]
      exact .keyword
    · rename_i fields
      split at h
      · rename_i word hFields
        rw [(ofKeyword?_eq_some_iff _ _).mp h] at hFields
        exact .object fields hFields
      · cases h
    · cases h
  · rintro (_ | ⟨fields, hFields⟩)
    · exact ofKeyword?_keyword property
    · rw [ofJson?, hFields]
      exact ofKeyword?_keyword property

theorem mapM_ofJson?_eq_some_iff (items : List Json) (properties : List Property) :
    items.mapM ofJson? = some properties ↔ List.Forall₂ Spells properties items := by
  induction items generalizing properties with
  | nil => cases properties <;> simp
  | cons item items ih =>
    rw [List.mapM_cons]
    cases properties with
    | nil => simp [Option.bind_eq_some_iff]
    | cons property properties =>
      simp [List.forall₂_cons, Option.bind_eq_some_iff, ofJson?_eq_some_iff, ih]

end Property

namespace Record
set_option autoImplicit false

/-- What stands for an optional text: a missing part, null, or the text. -/
inductive SpellsText : Option String → Option Json → Prop
  | missing : SpellsText none none
  | null : SpellsText none (some .null)
  | text (value : String) : SpellsText (some value) (some (.text value))

/-- What stands for the properties: a missing part, or a list with each of them. -/
inductive SpellsProperties : List Property → Option Json → Prop
  | missing : SpellsProperties [] none
  | list {properties : List Property} {items : List Json} :
    List.Forall₂ Property.Spells properties items → SpellsProperties properties (some (.list items))

theorem optionalText?_eq_some_iff (part : Option Json) (value : Option String) :
    (part.map optionalText?).getD (some none) = some value ↔ SpellsText value part := by
  constructor
  · intro h
    cases part with
    | none =>
      cases h
      exact .missing
    | some part =>
      rw [Option.map_some, Option.getD_some] at h
      unfold optionalText? at h
      split at h
      · cases h
        exact .null
      · cases h
        exact .text _
      · cases h
  · rintro (_ | _ | value) <;> rfl

theorem properties?_eq_some_iff (part : Option Json) (properties : List Property) :
    (part.map properties?).getD (some []) = some properties ↔ SpellsProperties properties part := by
  constructor
  · intro h
    cases part with
    | none =>
      cases h
      exact .missing
    | some part =>
      rw [Option.map_some, Option.getD_some] at h
      unfold properties? at h
      split at h
      · exact .list ((Property.mapM_ofJson?_eq_some_iff _ _).mp h)
      · cases h
  · rintro (_ | hItems)
    · rfl
    · exact (Property.mapM_ofJson?_eq_some_iff _ _).mpr hItems

theorem line?_eq_some_iff (value : Json) (line : UInt32) :
    line? value = some line ↔ value = .integer line.toNat := by
  constructor
  · intro h
    unfold line? at h
    split at h
    · rename_i n
      split at h
      · rename_i hLess
        cases h
        rw [Nat.toUInt32, UInt32.toNat_ofNat', Nat.mod_eq_of_lt hLess]
        rfl
      · cases h
    · cases h
  · rintro rfl
    exact line?_toNat line

theorem ofParts?_eq_some_iff (name start stop : Json) (className scope properties : Option Json)
    (record : Record) :
    ofParts? name start stop className scope properties = some record ↔
      name = .text record.name ∧ start = .integer record.start.toNat ∧
        stop = .integer record.stop.toNat ∧ SpellsText record.className className ∧
        SpellsText record.scope scope ∧ SpellsProperties record.properties properties := by
  simp only [ofParts?, Option.bind_eq_bind, Option.bind_eq_some_iff, Json.text?_eq_some_iff,
    line?_eq_some_iff, optionalText?_eq_some_iff, properties?_eq_some_iff]
  constructor
  · rintro ⟨name, hName, start, hStart, stop, hStop, className, hClass, scope, hScope, properties,
      hProperties, ⟨⟩⟩
    exact ⟨hName, hStart, hStop, hClass, hScope, hProperties⟩
  · rintro ⟨hName, hStart, hStop, hClass, hScope, hProperties⟩
    exact ⟨_, hName, _, hStart, _, hStop, _, hClass, _, hScope, _, hProperties, rfl⟩

/-- The part of an entry that stands under a key of an object, or at the place of that key in a
list. -/
def part? (key : String) : Json → Option Json
  | .object fields => Json.lookup key fields
  | .list items => items[keys.idxOf key]?
  | _ => none

/-- The values that are read as the entry. -/
structure Spells (record : Record) (value : Json) : Prop where
  length : ∀ items, value = .list items → items.length ≤ 6
  name : part? "name" value = some (.text record.name)
  start : part? "start" value = some (.integer record.start.toNat)
  stop : part? "end" value = some (.integer record.stop.toNat)
  className : SpellsText record.className (part? "className" value)
  scope : SpellsText record.scope (part? "namespace" value)
  properties : SpellsProperties record.properties (part? "properties" value)

theorem part?_list (items : List Json) :
    keys.map (part? · (.list items)) =
      [items[0]?, items[1]?, items[2]?, items[3]?, items[4]?, items[5]?] := by
  have hPlaces : keys.map keys.idxOf = [0, 1, 2, 3, 4, 5] := by decide
  have hParts := congrArg (List.map fun i => items[i]?) hPlaces
  rw [List.map_map] at hParts
  exact hParts

theorem ofJson?_object_eq_some_iff (fields : List (String × Json)) (record : Record) :
    ofJson? (.object fields) = some record ↔ record.Spells (.object fields) := by
  simp only [ofJson?, Option.bind_eq_bind, Option.bind_eq_some_iff, ofParts?_eq_some_iff]
  constructor
  · rintro ⟨_, hName, _, hStart, _, hStop, rfl, rfl, rfl, hClass, hScope, hProperties⟩
    exact ⟨fun _ h => (by cases h), hName, hStart, hStop, hClass, hScope, hProperties⟩
  · intro h
    exact ⟨_, h.name, _, h.start, _, h.stop, rfl, rfl, rfl, h.className, h.scope, h.properties⟩

theorem spells_list_iff (items : List Json) (record : Record) :
    record.Spells (.list items) ↔ items.length ≤ 6 ∧ items[0]? = some (.text record.name) ∧
      items[1]? = some (.integer record.start.toNat) ∧
      items[2]? = some (.integer record.stop.toNat) ∧ SpellsText record.className items[3]? ∧
      SpellsText record.scope items[4]? ∧ SpellsProperties record.properties items[5]? := by
  have hParts := part?_list items
  simp only [keys, List.map_cons, List.map_nil, List.cons.injEq, and_true] at hParts
  obtain ⟨hName, hStart, hStop, hClass, hScope, hProperties⟩ := hParts
  rw [← hName, ← hStart, ← hStop, ← hClass, ← hScope, ← hProperties]
  constructor
  · intro h
    exact ⟨h.length items rfl, h.name, h.start, h.stop, h.className, h.scope, h.properties⟩
  · rintro ⟨hLength, hName, hStart, hStop, hClass, hScope, hProperties⟩
    exact ⟨fun _ hItems => Json.list.inj hItems ▸ hLength, hName, hStart, hStop, hClass, hScope,
      hProperties⟩

theorem ofJson?_list_eq_some_iff (items : List Json) (record : Record) :
    ofJson? (.list items) = some record ↔ record.Spells (.list items) := by
  rw [spells_list_iff]
  match items with
  | [] | [_] | [_, _] => simp [ofJson?]
  | name :: start :: stop :: rest =>
    have hRead : ofJson? (.list (name :: start :: stop :: rest)) =
        if rest.length ≤ 3 then ofParts? name start stop rest[0]? rest[1]? rest[2]? else none := rfl
    have hLength : (name :: start :: stop :: rest).length ≤ 6 ↔ rest.length ≤ 3 := by
      simp only [List.length_cons]
      omega
    rw [hRead, hLength]
    split
    · rename_i hShort
      rw [ofParts?_eq_some_iff, and_iff_right hShort]
      simp only [List.getElem?_cons_zero, List.getElem?_cons_succ, Option.some.injEq]
    · rename_i hLong
      exact iff_of_false (fun h => by cases h) fun h => hLong h.1

theorem ofJson?_eq_some_iff (value : Json) (record : Record) :
    ofJson? value = some record ↔ record.Spells value := by
  cases value with
  | object fields => exact ofJson?_object_eq_some_iff fields record
  | list items => exact ofJson?_list_eq_some_iff items record
  | null | bool | integer | fraction | text =>
    exact iff_of_false (fun h => by cases h) fun h => by cases h.name

/-- A field that shows an absent text as null if that is asked for. -/
def shownField (shown : Bool) (key : String) : Option String → List (String × Json)
  | some value => [(key, .text value)]
  | none => if shown then [(key, .null)] else []

/-- The fields of an entry, where an absent class or scope may be shown. -/
def shownFields (showClass showScope : Bool) (record : Record) : List (String × Json) :=
  [("name", .text record.name), ("start", .integer record.start.toNat),
    ("end", .integer record.stop.toNat)] ++
  shownField showClass "className" record.className ++
  shownField showScope "namespace" record.scope ++
  [("properties", .list (record.properties.map Property.toJson))]

def optionalPart : Option String → Json
  | some value => .text value
  | none => .null

/-- The parts of an entry in writing order. -/
def parts (record : Record) : List Json :=
  [.text record.name, .integer record.start.toNat, .integer record.stop.toNat,
    optionalPart record.className, optionalPart record.scope,
    .list (record.properties.map Property.toJson)]

theorem shownFields_false (record : Record) : record.shownFields false false = record.fields := by
  obtain ⟨name, start, stop, className, scope, properties⟩ := record
  cases className <;> cases scope <;> rfl

theorem shownFields_keys_sublist (showClass showScope : Bool) (record : Record) :
    ((record.shownFields showClass showScope).map (·.1)).Sublist keys := by
  have hShown (shown : Bool) (key : String) (value : Option String) :
      ((shownField shown key value).map (·.1)).Sublist [key] := by
    cases value <;> cases shown <;> simp [shownField]
  rw [shownFields, List.map_append, List.map_append, List.map_append]
  exact (((List.Sublist.refl _).append (hShown _ _ _)).append (hShown _ _ _)).append
    (List.Sublist.refl _)

theorem spells_properties (properties : List Property) :
    SpellsProperties properties (some (.list (properties.map Property.toJson))) := by
  constructor
  rw [List.forall₂_map_right_iff]
  exact List.forall₂_same.mpr fun property _ => .keyword

theorem spells_lookup_shownField (shown : Bool) (key : String) (value : Option String) :
    SpellsText value (Json.lookup key (shownField shown key value)) := by
  cases value with
  | some value =>
    rw [shownField, Json.lookup_cons, if_pos rfl]
    exact .text value
  | none =>
    cases shown with
    | false => exact .missing
    | true =>
      rw [shownField, if_pos rfl, Json.lookup_cons, if_pos rfl]
      exact .null

theorem lookup_shownField_of_ne {key other : String} (h : other ≠ key) (shown : Bool)
    (value : Option String) : Json.lookup key (shownField shown other value) = none := by
  cases value with
  | some value =>
    rw [shownField, Json.lookup_cons_of_ne h]
    rfl
  | none =>
    cases shown with
    | false => rfl
    | true =>
      rw [shownField, if_pos rfl, Json.lookup_cons_of_ne h]
      rfl

theorem lookup_shownFields (showClass showScope : Bool) (record : Record) :
    keys.map (Json.lookup · (record.shownFields showClass showScope)) =
      [some (.text record.name), some (.integer record.start.toNat),
        some (.integer record.stop.toNat),
        Json.lookup "className" (shownField showClass "className" record.className),
        Json.lookup "namespace" (shownField showScope "namespace" record.scope),
        some (.list (record.properties.map Property.toJson))] := by
  have hNil (key : String) : Json.lookup key [] = none := rfl
  simp [keys, shownFields, Json.lookup_append, Json.lookup_cons, hNil, lookup_shownField_of_ne]

theorem spells_object {record : Record} {showClass showScope : Bool}
    {fields : List (String × Json)}
    (h : (fields.filter fun field => keys.contains field.1).Perm
      (record.shownFields showClass showScope)) : record.Spells (.object fields) := by
  have hKnown : ∀ key ∈ keys,
      Json.lookup key fields = Json.lookup key (record.shownFields showClass showScope) := by
    intro key hKey
    have hNodup := (record.shownFields_keys_sublist showClass showScope).nodup (by decide)
    rw [← Json.lookup_of_perm h hNodup, Json.lookup_filter]
    rintro field rfl
    exact List.contains_iff_mem.mpr hKey
  have hParts := (List.map_congr_left hKnown).trans (record.lookup_shownFields showClass showScope)
  simp only [keys, List.map_cons, List.map_nil, List.cons.injEq, and_true] at hParts
  obtain ⟨hName, hStart, hStop, hClass, hScope, hProperties⟩ := hParts
  refine ⟨fun _ h => (by cases h), hName, hStart, hStop, ?_, ?_, ?_⟩
  · rw [part?, hClass]
    exact spells_lookup_shownField _ _ _
  · rw [part?, hScope]
    exact spells_lookup_shownField _ _ _
  · rw [part?, hProperties]
    exact spells_properties record.properties

/-- A part that is left out at the end stood for nothing. -/
theorem getElem?_take_parts {record : Record} {count : Nat}
    (h : ∀ part ∈ record.parts.drop count, part = .null ∨ part = .list []) {i : Nat} {part : Json}
    (hPart : record.parts[i]? = some part) :
    (record.parts.take count)[i]? = some part ∨
      (record.parts.take count)[i]? = none ∧ (part = .null ∨ part = .list []) := by
  rw [List.getElem?_take]
  split
  · exact .inl hPart
  · rename_i hCount
    refine .inr ⟨rfl, h part (List.mem_of_getElem? (i := i - count) ?_)⟩
    rw [List.getElem?_drop, Nat.add_sub_cancel' (Nat.le_of_not_lt hCount)]
    exact hPart

theorem spells_text_of_take {value : Option String} {part : Option Json}
    (h : part = some (optionalPart value) ∨
      part = none ∧ (optionalPart value = .null ∨ optionalPart value = .list [])) :
    SpellsText value part := by
  rcases h with rfl | ⟨rfl, hNothing⟩
  · cases value with
    | none => exact .null
    | some value => exact .text value
  · cases value with
    | none => exact .missing
    | some value => rcases hNothing with h | h <;> cases h

theorem spells_list {record : Record} {count : Nat} (hCount : 3 ≤ count)
    (h : ∀ part ∈ record.parts.drop count, part = .null ∨ part = .list []) :
    record.Spells (.list (record.parts.take count)) := by
  have hFirst (i : Nat) (hi : i < 3) : (record.parts.take count)[i]? = record.parts[i]? := by
    rw [List.getElem?_take, if_pos (Nat.lt_of_lt_of_le hi hCount)]
  refine (spells_list_iff _ record).mpr ⟨?_, ?_, ?_, ?_, ?_, ?_, ?_⟩
  · exact List.length_take_le' count record.parts
  · exact hFirst 0 (by decide)
  · exact hFirst 1 (by decide)
  · exact hFirst 2 (by decide)
  · exact spells_text_of_take (getElem?_take_parts h rfl)
  · exact spells_text_of_take (getElem?_take_parts h rfl)
  · rcases getElem?_take_parts h (i := 5) rfl with hPart | ⟨hPart, hNothing⟩
    · rw [hPart]
      exact spells_properties record.properties
    · have hNone : record.properties = [] := by
        rcases hNothing with hNothing | hNothing
        · cases hNothing
        · exact List.map_eq_nil_iff.mp (Json.list.inj hNothing)
      rw [hPart, hNone]
      exact .missing

/-- All forms of an entry are read as the entry. -/
structure ReadBack (record : Record) : Prop where
  written : record.toJson = .object (record.shownFields false false)
  own : ofJson? record.toJson = some record
  printed : (Json.parse? record.toJson.compact).bind ofJson? = some record
  located : ∀ file, ofJson? (record.toLocatedJson file) = some record
  rearranged : ∀ showClass showScope fields,
    (fields.filter fun field => keys.contains field.1).Perm
      (record.shownFields showClass showScope) → ofJson? (.object fields) = some record
  positional : ∀ count, 3 ≤ count →
    (∀ part ∈ record.parts.drop count, part = .null ∨ part = .list []) →
      ofJson? (.list (record.parts.take count)) = some record

theorem readBack (record : Record) : ReadBack record where
  written := by rw [shownFields_false, toJson]
  own := ofJson?_toJson record
  printed := by
    have hWhole : Json.IsWhole record.toJson := .object _ record.fields_isWhole
    rw [Json.parse?_compact hWhole, Option.bind_some]
    exact ofJson?_toJson record
  located file := ofJson?_toLocatedJson file record
  rearranged _ _ _ h := (ofJson?_eq_some_iff _ record).mpr (spells_object h)
  positional _ hCount h := (ofJson?_eq_some_iff _ record).mpr (spells_list hCount h)

/-- What is read from a value, and why nothing is read from it. -/
structure ReadExactly (value : Json) : Prop where
  read_iff : ∀ record, ofJson? value = some record ↔ record.Spells value
  canonical : ∀ record, ofJson? value = some record → ofJson? record.toJson = some record
  required : ∀ key ∈ ["name", "start", "end"], part? key value = none → ofJson? value = none
  line_bounds : ∀ key ∈ ["start", "end"], ∀ line : Int, part? key value = some (.integer line) →
    line < 0 ∨ 4294967295 < line → ofJson? value = none
  properties_not_null : part? "properties" value = some .null → ofJson? value = none
  length_le : ∀ items, value = .list items → 6 < items.length → ofJson? value = none
  property_iff : ∀ property, Property.ofJson? value = some property ↔ property.Spells value

theorem ofJson?_eq_none_iff (value : Json) :
    ofJson? value = none ↔ ∀ record : Record, ¬record.Spells value := by
  simp only [Option.eq_none_iff_forall_ne_some, ne_eq, ofJson?_eq_some_iff]

theorem not_spellsProperties_null (properties : List Property) :
    ¬SpellsProperties properties (some .null) := by
  rintro ⟨⟩

theorem line_le {line : Int} {word : UInt32}
    (h : some (Json.integer line) = some (.integer word.toNat)) : 0 ≤ line ∧ line ≤ 4294967295 := by
  have hLine : line = word.toNat := Json.integer.inj (Option.some.inj h)
  have hWord : word.toNat < 4294967296 := word.toNat_lt
  omega

theorem readExactly (value : Json) : ReadExactly value where
  read_iff := ofJson?_eq_some_iff value
  canonical record _ := ofJson?_toJson record
  required key hKey hNone := by
    rw [ofJson?_eq_none_iff]
    intro record h
    simp only [List.mem_cons, List.not_mem_nil, or_false] at hKey
    rcases hKey with rfl | rfl | rfl
    · exact Option.some_ne_none _ (h.name.symm.trans hNone)
    · exact Option.some_ne_none _ (h.start.symm.trans hNone)
    · exact Option.some_ne_none _ (h.stop.symm.trans hNone)
  line_bounds key hKey line hLine hOutside := by
    rw [ofJson?_eq_none_iff]
    intro record h
    rcases List.mem_pair.mp hKey with rfl | rfl
    · have hBounds := line_le (hLine.symm.trans h.start)
      omega
    · have hBounds := line_le (hLine.symm.trans h.stop)
      omega
  properties_not_null hNull := by
    rw [ofJson?_eq_none_iff]
    intro record h
    exact not_spellsProperties_null record.properties (hNull ▸ h.properties)
  length_le items hItems hLong := by
    rw [ofJson?_eq_none_iff]
    intro record h
    have hLength := h.length items hItems
    omega
  property_iff := Property.ofJson?_eq_some_iff value

/-- Writing and reading are inverse on entries, and reading takes the forms of entries only. -/
theorem forms_exact (record : Record) (value : Json) : ReadBack record ∧ ReadExactly value :=
  ⟨readBack record, readExactly value⟩

example :
    ofJson? (.object [("end", .integer 7), ("note", .bool true), ("className", .null),
      ("properties", .list [.object [("const", .null)], .text "static"]), ("name", .text "f()"),
      ("start", .integer 5)]) = some ⟨"f()", 5, 7, none, none, [.const, .static]⟩ := by
  decide

end Record
end FunctionIndex
