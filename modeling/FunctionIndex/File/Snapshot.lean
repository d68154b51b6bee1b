import FunctionIndex.Extraction.Basic
import FunctionIndex.Json.Quoted
import FunctionIndex.Tree.Encoding

/-! # Snapshots

A snapshot is the content of a working directory together with the finished trees of its sources. It
is given as a list of objects: a text file has `path`, `content` and `trees` (a tree for the name of
each grammar), a file of other bytes has `path` and `hex`, a folder has `path` and `dir`.
-/
namespace FunctionIndex
set_option autoImplicit false

structure Parsed where
  source : String
  language : String
  tree : Tree

structure Snapshot where
  directory : Directory
  trees : List Parsed

namespace Snapshot

def empty : Snapshot := ⟨[], []⟩

def parser (snapshot : Snapshot) : Parser := fun language source =>
  (snapshot.trees.find? fun parsed =>
    parsed.source == source && parsed.language == language.name).map (·.tree)

def names (path : String) : List String :=
  (Path.mk path).pieces.filter fun piece => piece != "" && piece != "."

def hexBytes? : List Char → Option (List UInt8)
  | [] => some []
  | high :: low :: rest => do
    let high ← Json.Quoted.hexValue? high
    let low ← Json.Quoted.hexValue? low
    return (high * 16 + low).toUInt8 :: (← hexBytes? rest)
  | _ => none

def addText (snapshot : Snapshot) (path content : String) (trees : List Parsed) : Snapshot :=
  ⟨snapshot.directory.add (some content.toUTF8) (names path), snapshot.trees ++ trees⟩

def addBytes (snapshot : Snapshot) (path : String) (bytes : List UInt8) : Snapshot :=
  ⟨snapshot.directory.add (some ⟨bytes.toArray⟩) (names path), snapshot.trees⟩

def addFolder (snapshot : Snapshot) (path : String) : Snapshot :=
  ⟨snapshot.directory.add none (names path), snapshot.trees⟩

def trees? (content : String) : Option Json → Option (List Parsed)
  | none => some []
  | some (.object fields) =>
    (Json.latest fields).mapM fun field => do
      return ⟨content, field.1, ← Tree.ofJson? field.2⟩
  | some _ => none

def add? (snapshot : Snapshot) (item : Json) : Option Snapshot := do
  let path ← (← item.field? "path").text?
  match item.field? "content", item.field? "hex" with
  | some content, _ =>
    let content ← content.text?
    return snapshot.addText path content (← trees? content (item.field? "trees"))
  | none, some digits => return snapshot.addBytes path (← hexBytes? (← digits.text?).toList)
  | none, none =>
    let folder ← (← item.field? "dir").bool?
    if folder then return snapshot.addFolder path else none

def ofJson? (value : Json) : Option Snapshot := do
  (← value.list?).foldlM add? empty

end Snapshot
end FunctionIndex
