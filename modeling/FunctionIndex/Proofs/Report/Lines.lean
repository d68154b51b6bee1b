import FunctionIndex.Proofs.Json.RoundTrip
import FunctionIndex.Proofs.Report.Entry
import FunctionIndex.Proofs.Text.Utf8
import FunctionIndex.Report.Basic

/-! # Reports in lines

In the line format each entry is one line of visible bytes that is closed by a newline. The lines
can be told apart, each of them is read back as its entry, and so the bytes decide all entries.
-/
namespace FunctionIndex

namespace Sink
set_option autoImplicit false

theorem writeAll_unbounded (chunks : List (List UInt8)) (held : List UInt8) :
    Sink.writeAll ⟨none, held⟩ chunks = (true, ⟨none, held ++ chunks.flatten⟩) := by
  induction chunks generalizing held with
  | nil => rw [writeAll, List.flatten_nil, List.append_nil]
  | cons chunk chunks ih =>
    rw [List.flatten_cons, ← List.append_assoc]
    exact ih (held ++ chunk)

end Sink

namespace Report
set_option autoImplicit false

/-- The entries of some files in order, each with the name of its file. -/
def located (files : List FileRecords) : List (String × Record) :=
  files.flatMap fun content => content.records.map fun record => (content.file, record)

def entry (withFile : Bool) (item : String × Record) : Json :=
  if withFile then item.2.toLocatedJson item.1 else item.2.toJson

def line (withFile : Bool) (item : String × Record) : String := (entry withFile item).compact

theorem entries_eq (withFile : Bool) (files : List FileRecords) :
    entries withFile files = (located files).map (entry withFile) := by
  rw [entries, located, List.map_flatMap]
  apply congrArg (files.flatMap ·)
  funext content
  rw [List.map_map]
  cases withFile <;> rfl

theorem entry_isWhole (withFile : Bool) (item : String × Record) :
    Json.IsWhole (entry withFile item) := by
  cases withFile with
  | false => exact .object _ item.2.fields_isWhole
  | true => exact .object _ (List.forall_mem_cons.mpr ⟨.text item.1, item.2.fields_isWhole⟩)

theorem parse?_line (withFile : Bool) (item : String × Record) :
    ∃ value, Json.parse? (line withFile item) = some value ∧
      Record.ofJson? value = some item.2 ∧
      value.field? "file" = if withFile then some (.text item.1) else none := by
  refine ⟨entry withFile item, Json.parse?_compact (entry_isWhole withFile item), ?_⟩
  cases withFile with
  | false => exact ⟨item.2.ofJson?_toJson, item.2.field?_file_toJson⟩
  | true => exact ⟨item.2.ofJson?_toLocatedJson item.1, item.2.field?_file_toLocatedJson item.1⟩

/-- The name of a file is in an entry only if it is asked for. -/
def seen (withFile : Bool) (item : String × Record) : Option String × Record :=
  (if withFile then some item.1 else none, item.2)

def readLine? (line : String) : Option (Option String × Record) := do
  let value ← Json.parse? line
  let record ← Record.ofJson? value
  return ((value.field? "file").bind Json.text?, record)

theorem readLine?_line (withFile : Bool) (item : String × Record) :
    readLine? (line withFile item) = some (seen withFile item) := by
  obtain ⟨value, hValue, hRecord, hFile⟩ := parse?_line withFile item
  simp only [readLine?, hValue, Option.bind_eq_bind, Option.bind_some, hRecord, hFile, seen]
  cases withFile <;> rfl

theorem le_of_mem_line {withFile : Bool} {item : String × Record} {c : Char}
    (h : c ∈ (line withFile item).toList) : 0x20 ≤ c.toNat := by
  rw [line, Json.compact, String.toList_ofList] at h
  have hShown := Json.isControl_of_mem_compactChars (entry_isWhole withFile item) c h
  simpa [Json.Quoted.isControl] using hShown

theorem le_of_mem_bytes_line {withFile : Bool} {item : String × Record} {byte : UInt8}
    (h : byte ∈ Text.Utf8.bytes (line withFile item)) : 0x20 ≤ byte := by
  have hLow := Text.Utf8.le_of_mem_bytes (by decide) (fun _ hc => le_of_mem_line hc) h
  exact UInt8.le_iff_toNat_le.mpr hLow

theorem text_lines (withFile : Bool) (files : List FileRecords) :
    text .lines withFile files =
      String.join ((located files).flatMap fun item => [line withFile item, "\n"]) := by
  rw [text, chunks, entries_eq, List.flatMap_map]
  rfl

theorem toList_text_lines (withFile : Bool) (files : List FileRecords) :
    (text .lines withFile files).toList =
      ((located files).map fun item => (line withFile item).toList).flatMap (· ++ ['\n']) := by
  rw [text_lines, String.toList_join, List.flatMap_assoc, List.flatMap_map]
  rfl

theorem bytes_text_lines (withFile : Bool) (files : List FileRecords) :
    Text.Utf8.bytes (text .lines withFile files) =
      ((located files).map fun item => Text.Utf8.bytes (line withFile item)).flatMap (· ++ [10]) := by
  rw [text_lines, Text.Utf8.bytes_join, List.flatMap_assoc, List.flatMap_map]
  rfl

theorem splitOn_text_lines (withFile : Bool) (files : List FileRecords) :
    (text .lines withFile files).toList.splitOn '\n' =
      (located files).map (fun item => (line withFile item).toList) ++ [[]] := by
  rw [toList_text_lines]
  apply Text.splitOn_flatMap_closed
  intro part hPart hNewline
  obtain ⟨item, -, rfl⟩ := List.mem_map.mp hPart
  exact absurd (le_of_mem_line hNewline) (by decide)

theorem splitOn_bytes_text_lines (withFile : Bool) (files : List FileRecords) :
    (Text.Utf8.bytes (text .lines withFile files)).splitOn 10 =
      (located files).map (fun item => Text.Utf8.bytes (line withFile item)) ++ [[]] := by
  rw [bytes_text_lines]
  apply Text.splitOn_flatMap_closed
  intro part hPart hNewline
  obtain ⟨item, -, rfl⟩ := List.mem_map.mp hPart
  exact absurd (le_of_mem_bytes_line hNewline) (by decide)

theorem located_append (files files' : List FileRecords) :
    located (files ++ files') = located files ++ located files' := List.flatMap_append

theorem write_unbounded (format : Format) (withFile : Bool) (files : List FileRecords) :
    write format withFile files .unbounded =
      (true, ⟨none, Text.Utf8.bytes (text format withFile files)⟩) := by
  rw [write, Sink.unbounded, Sink.writeAll_unbounded, text, Text.Utf8.bytes_join,
    List.flatMap_def, List.nil_append]
  rfl

/-- The members of an entry in their order, each with the text of its value. -/
def members (withFile : Bool) (item : String × Record) : List (String × List Char) :=
  let (file, record) := item
  let optional (key : String) (value : Option String) :=
    value.toList.map fun value => (key, Json.Quoted.quote value.toList)
  (if withFile then [("file", Json.Quoted.quote file.toList)] else []) ++
    [("name", Json.Quoted.quote record.name.toList),
      ("start", Text.Decimal.digits record.start.toNat),
      ("end", Text.Decimal.digits record.stop.toNat)] ++
    optional "className" record.className ++ optional "namespace" record.scope ++
    [("properties", '[' :: ([','].intercalate
      (record.properties.map fun property => Json.Quoted.quote property.keyword.toList) ++ [']']))]

def joined (members : List (String × List Char)) : List Char :=
  '\x7b' :: ([','].intercalate
    (members.map fun member => Json.Quoted.quote member.1.toList ++ ':' :: member.2) ++ ['\x7d'])

theorem compactChars_properties (properties : List Property) :
    Json.compactChars (.list (properties.map Property.toJson)) =
      '[' :: ([','].intercalate
        (properties.map fun property => Json.Quoted.quote property.keyword.toList) ++ [']']) := by
  rw [Json.compactChars_list, List.map_map]
  rfl

theorem entry_members (withFile : Bool) (item : String × Record) :
    ∃ fields, entry withFile item = .object fields ∧
      fields.map Json.memberChars =
        (members withFile item).map fun member =>
          Json.Quoted.quote member.1.toList ++ ':' :: member.2 := by
  obtain ⟨file, name, start, stop, className, scope, properties⟩ := item
  rw [members, ← compactChars_properties]
  cases withFile <;> cases className <;> cases scope <;> exact ⟨_, rfl, rfl⟩

theorem toList_line (withFile : Bool) (item : String × Record) :
    (line withFile item).toList = joined (members withFile item) := by
  obtain ⟨fields, hEntry, hFields⟩ := entry_members withFile item
  rw [line, Json.compact, String.toList_ofList, hEntry, Json.compactChars_object, hFields, joined]

/-- What the bytes of a report in lines say about its entries. -/
structure LinesFaithful (withFile : Bool) (files : List FileRecords) : Prop where
  /-- The bytes that are meant are those that a sink without bound takes. -/
  written : write .lines withFile files .unbounded =
    (true, ⟨none, Text.Utf8.bytes (text .lines withFile files)⟩)
  split : (Text.Utf8.bytes (text .lines withFile files)).splitOn 10 =
    (located files).map (fun item => Text.Utf8.bytes (line withFile item)) ++ [[]]
  visible : ∀ item ∈ located files, ∀ byte ∈ Text.Utf8.bytes (line withFile item), 0x20 ≤ byte
  closed : Text.Utf8.bytes (text .lines withFile files) ≠ [] →
    (Text.Utf8.bytes (text .lines withFile files)).getLast? = some 10
  decoded : ∀ item ∈ located files, ∃ value, Json.parse? (line withFile item) = some value ∧
    Record.ofJson? value = some item.2 ∧
    value.field? "file" = if withFile then some (.text item.1) else none
  injective : ∀ files', text .lines withFile files' = text .lines withFile files →
    (located files').map (seen withFile) = (located files).map (seen withFile)
  append : ∀ files', text .lines withFile (files ++ files') =
    text .lines withFile files ++ text .lines withFile files'
  form : ∀ item ∈ located files, (line withFile item).toList = joined (members withFile item)
  quoted : ∀ chars quoted, Json.Quoted.Quotes chars quoted ↔ quoted = Json.Quoted.quote chars

theorem located_injective {withFile : Bool} {files files' : List FileRecords}
    (h : text .lines withFile files = text .lines withFile files') :
    (located files).map (seen withFile) = (located files').map (seen withFile) := by
  have hRead (files : List FileRecords) :
      (((text .lines withFile files).toList.splitOn '\n').dropLast.map fun chars =>
        readLine? (String.ofList chars)) = ((located files).map (seen withFile)).map some := by
    rw [splitOn_text_lines, List.dropLast_concat, List.map_map, List.map_map]
    apply List.map_congr_left
    intro item _
    exact (congrArg readLine? String.ofList_toList).trans (readLine?_line withFile item)
  have hSome := hRead files
  rw [h, hRead files'] at hSome
  exact (List.map_injective_iff.mpr (fun _ _ => Option.some.inj) hSome).symm

theorem getLast?_bytes_text_lines (withFile : Bool) (files : List FileRecords)
    (h : Text.Utf8.bytes (text .lines withFile files) ≠ []) :
    (Text.Utf8.bytes (text .lines withFile files)).getLast? = some 10 := by
  rw [bytes_text_lines] at h ⊢
  rcases List.eq_nil_or_concat ((located files).map fun item => Text.Utf8.bytes (line withFile item))
    with hNil | ⟨lines, line, hLines⟩
  · rw [hNil] at h
    exact absurd rfl h
  · rw [hLines, List.concat_eq_append, List.flatMap_append, List.flatMap_singleton,
      ← List.append_assoc, List.getLast?_concat]

theorem lines_faithful (withFile : Bool) (files : List FileRecords) :
    LinesFaithful withFile files where
  written := write_unbounded .lines withFile files
  split := splitOn_bytes_text_lines withFile files
  visible _ _ _ h := le_of_mem_bytes_line h
  closed := getLast?_bytes_text_lines withFile files
  decoded item _ := parse?_line withFile item
  injective _ h := located_injective h
  append files' := by
    rw [text_lines, text_lines, text_lines, located_append, List.flatMap_append, String.join_append]
  form item _ := toList_line withFile item
  quoted := Json.Quoted.quotes_iff

end Report
end FunctionIndex
