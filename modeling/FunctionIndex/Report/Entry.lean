import FunctionIndex.Definition.Record
import FunctionIndex.Json.Basic

/-! # Entries as JSON

An entry is written as an object; absent class and namespaces leave no field. It is read from such
an object, whatever the order of its fields, or from a list of its parts in writing order.
-/
namespace FunctionIndex
set_option autoImplicit false

namespace Property

def toJson (property : Property) : Json := .text property.keyword

/-- A property is its keyword, or an object whose only field is the keyword with the value null. -/
def ofJson? : Json → Option Property
  | .text word => ofKeyword? word
  | .object fields =>
    match Json.latest fields with
    | [(word, .null)] => ofKeyword? word
    | _ => none
  | _ => none

end Property

namespace Record

def optionalField (key : String) : Option String → List (String × Json)
  | some value => [(key, .text value)]
  | none => []

def fields (record : Record) : List (String × Json) :=
  [("name", .text record.name), ("start", .integer record.start.toNat),
    ("end", .integer record.stop.toNat)] ++
  optionalField "className" record.className ++
  optionalField "namespace" record.scope ++
  [("properties", .list (record.properties.map Property.toJson))]

def toJson (record : Record) : Json := .object record.fields

def toLocatedJson (file : String) (record : Record) : Json :=
  .object (("file", .text file) :: record.fields)

def line? : Json → Option UInt32
  | .integer (.ofNat n) => if n < UInt32.size then some n.toUInt32 else none
  | _ => none

def optionalText? : Json → Option (Option String)
  | .null => some none
  | .text value => some (some value)
  | _ => none

def properties? : Json → Option (List Property)
  | .list items => items.mapM Property.ofJson?
  | _ => none

/-- Parts that are missing at the end have the value they get when their field is missing. -/
def ofParts? (name start stop : Json) (className scope properties : Option Json) :
    Option Record := do
  let name ← name.text?
  let start ← line? start
  let stop ← line? stop
  let className ← (className.map optionalText?).getD (some none)
  let scope ← (scope.map optionalText?).getD (some none)
  let properties ← (properties.map properties?).getD (some [])
  return { name, start, stop, className, scope, properties }

def ofJson? : Json → Option Record
  | .object fields => do
    let name ← Json.lookup "name" fields
    let start ← Json.lookup "start" fields
    let stop ← Json.lookup "end" fields
    ofParts? name start stop (Json.lookup "className" fields) (Json.lookup "namespace" fields)
      (Json.lookup "properties" fields)
  | .list (name :: start :: stop :: rest) =>
    if rest.length ≤ 3 then ofParts? name start stop rest[0]? rest[1]? rest[2]? else none
  | _ => none

end Record

namespace FileRecords

def ofParts? (file language records : Json) : Option FileRecords := do
  let file ← file.text?
  let language ← language.text?
  let items ← records.list?
  let records ← items.mapM Record.ofJson?
  return { file, language, records }

def ofJson? : Json → Option FileRecords
  | .object fields => do
    let file ← Json.lookup "file" fields
    let language ← Json.lookup "language" fields
    let records ← Json.lookup "functions" fields
    ofParts? file language records
  | .list [file, language, records] => ofParts? file language records
  | _ => none

def toJson (content : FileRecords) : Json :=
  .object [("file", .text content.file), ("language", .text content.language),
    ("functions", .list (content.records.map Record.toJson))]

end FileRecords
end FunctionIndex
