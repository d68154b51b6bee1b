import FunctionIndex.Report.Entry
import FunctionIndex.Proofs.Json.Layout

/-! # Entries

An entry's object has each of its keys once, so every field is found again, also behind further
fields with other keys. Read from such an object the entry is the one that was written.
-/
namespace FunctionIndex

namespace Json
set_option autoImplicit false

/-- A field with another key in front changes nothing. -/
theorem lookup_cons_of_ne {key : String} {field : String × Json} (h : field.1 ≠ key)
    (fields : List (String × Json)) : lookup key (field :: fields) = lookup key fields := by
  rw [lookup, lookup, latest]
  split
  · rfl
  · rw [List.find?_cons_of_neg (by simpa using h)]

/-- Without a repeated key all fields are in force. -/
theorem latest_of_nodup {fields : List (String × Json)} (h : (fields.map (·.1)).Nodup) :
    latest fields = fields := by
  induction fields with
  | nil => rfl
  | cons field fields ih =>
    obtain ⟨hNew, hRest⟩ := List.nodup_cons.mp h
    have hAny : ¬fields.any (·.1 == field.1) = true := by
      rw [List.any_eq_true]
      rintro ⟨other, hOther, hKey⟩
      exact hNew (List.mem_map.mpr ⟨other, hOther, beq_iff_eq.mp hKey⟩)
    rw [latest, ih hRest]
    exact if_neg hAny

theorem lookup_of_nodup {fields : List (String × Json)} (h : (fields.map (·.1)).Nodup)
    (key : String) : lookup key fields = (fields.find? (·.1 == key)).map (·.2) := by
  rw [lookup, latest_of_nodup h]

end Json

namespace Property
set_option autoImplicit false

theorem ofJson?_toJson (property : Property) : ofJson? property.toJson = some property :=
  ofKeyword?_keyword property

theorem mapM_ofJson?_toJson (properties : List Property) :
    (properties.map toJson).mapM ofJson? = some properties := by
  induction properties with
  | nil => rfl
  | cons property properties ih =>
    rw [List.map_cons, List.mapM_cons, ofJson?_toJson, ih]
    rfl

end Property

namespace Record
set_option autoImplicit false

def keys : List String := ["name", "start", "end", "className", "namespace", "properties"]

theorem file_not_mem_keys : "file" ∉ keys := by decide

theorem line?_toNat (line : UInt32) : line? (.integer line.toNat) = some line := by
  have hLess : line.toNat < UInt32.size := line.toNat_lt
  have hLine : line.toNat.toUInt32 = line := UInt32.ofNat_toNat
  exact (if_pos hLess).trans (congrArg some hLine)

theorem keys_sublist (record : Record) : (record.fields.map (·.1)).Sublist keys := by
  obtain ⟨name, start, stop, className, scope, properties⟩ := record
  cases className <;> cases scope <;> simp [fields, optionalField, keys]

theorem lookup_fields (record : Record) (key : String) :
    Json.lookup key record.fields = (record.fields.find? (·.1 == key)).map (·.2) :=
  Json.lookup_of_nodup (record.keys_sublist.nodup (by decide)) key

/-- What stands for each key in an entry's object. -/
theorem lookup_keys (record : Record) :
    keys.map (Json.lookup · record.fields) =
      [some (.text record.name), some (.integer record.start.toNat),
        some (.integer record.stop.toNat), record.className.map .text, record.scope.map .text,
        some (.list (record.properties.map Property.toJson))] := by
  obtain ⟨name, start, stop, className, scope, properties⟩ := record
  simp only [keys, List.map_cons, List.map_nil, lookup_fields]
  cases className <;> cases scope <;> simp [fields, optionalField]

/-- An absent text leaves no field; a missing field is read as an absent text. -/
theorem optionalText?_map_text (value : Option String) :
    ((value.map Json.text).map optionalText?).getD (some none) = some value := by
  cases value <;> rfl

/-- What is found for the keys of an entry decides what is read. -/
theorem ofJson?_of_lookup (record : Record) {fields : List (String × Json)}
    (h : ∀ key ∈ keys, Json.lookup key fields = Json.lookup key record.fields) :
    ofJson? (.object fields) = some record := by
  have hKeys := (List.map_congr_left h).trans record.lookup_keys
  simp only [keys, List.map_cons, List.map_nil, List.cons.injEq, and_true] at hKeys
  obtain ⟨hName, hStart, hStop, hClass, hScope, hProperties⟩ := hKeys
  rw [ofJson?, hName, hStart, hStop, hClass, hScope, hProperties]
  simp only [Option.bind_eq_bind, Option.bind_some, ofParts?, Json.text?, line?_toNat,
    optionalText?_map_text, Option.map_some, Option.getD_some, properties?,
    Property.mapM_ofJson?_toJson]
  rfl

theorem ofJson?_toJson (record : Record) : ofJson? record.toJson = some record :=
  ofJson?_of_lookup record fun _ _ => rfl

theorem ofJson?_toLocatedJson (file : String) (record : Record) :
    ofJson? (record.toLocatedJson file) = some record := by
  apply ofJson?_of_lookup
  intro key hKey
  apply Json.lookup_cons_of_ne
  rintro rfl
  exact file_not_mem_keys hKey

theorem field?_file_toJson (record : Record) : record.toJson.field? "file" = none := by
  have hNone : record.fields.find? (·.1 == "file") = none := by
    rw [List.find?_eq_none]
    intro field hField hKey
    have hMem := record.keys_sublist.subset (List.mem_map_of_mem hField)
    exact file_not_mem_keys (beq_iff_eq.mp hKey ▸ hMem)
  rw [toJson, Json.field?, lookup_fields, hNone, Option.map_none]

theorem field?_file_toLocatedJson (file : String) (record : Record) :
    (record.toLocatedJson file).field? "file" = some (.text file) := by
  have hNodup : ((("file", Json.text file) :: record.fields).map (·.1)).Nodup :=
    (record.keys_sublist.cons_cons "file").nodup (by decide)
  rw [toLocatedJson, Json.field?, Json.lookup_of_nodup hNodup, List.find?_cons_of_pos (by rfl)]
  rfl

theorem fields_isWhole (record : Record) : ∀ field ∈ record.fields, Json.IsWhole field.2 := by
  have hOptional (key : String) (value : Option String) :
      ∀ field ∈ optionalField key value, Json.IsWhole field.2 := by
    cases value with
    | none => exact fun _ h => absurd h List.not_mem_nil
    | some value => exact List.forall_mem_singleton.mpr (.text value)
  have hProperties : Json.IsWhole (.list (record.properties.map Property.toJson)) := by
    constructor
    intro item hItem
    obtain ⟨property, -, rfl⟩ := List.mem_map.mp hItem
    exact .text property.keyword
  intro field hField
  simp only [fields, List.mem_append, List.mem_cons, List.not_mem_nil, or_false] at hField
  rcases hField with (((rfl | rfl | rfl) | hField) | hField) | rfl
  · exact .text _
  · exact .integer _
  · exact .integer _
  · exact hOptional _ _ field hField
  · exact hOptional _ _ field hField
  · exact hProperties

end Record
end FunctionIndex
