import FunctionIndex.Json.Basic
import FunctionIndex.Tree.Listing

/-! # Trees as JSON

A tree is given as the list of its kinds and the listing of its nodes. A node is a list of seven
numbers: its parent (-1 for the root), the index of its kind, 1 if it is named, its first byte and
the byte after its last, its first and its last row.
-/
namespace FunctionIndex
set_option autoImplicit false

namespace Row

def ofJson? (kinds : Array String) : Json → Option Row
  | .list [parent, kind, named, startByte, endByte, startRow, endRow] => do
    let parent ← parent.int?
    let kind ← kinds[← kind.nat?]?
    let named ← named.nat?
    let startByte ← startByte.nat?
    let endByte ← endByte.nat?
    let startRow ← startRow.nat?
    let endRow ← endRow.nat?
    let label : Label := { kind, named := named != 0, startByte, endByte, startRow, endRow }
    return { parent := if parent < 0 then none else some parent.toNat, label }
  | _ => none

end Row

namespace Tree

def ofJson? (value : Json) : Option Tree := do
  let kinds ← (← (← value.field? "kinds").list?).mapM Json.text?
  let rows ← (← (← value.field? "nodes").list?).mapM (Row.ofJson? kinds.toArray)
  ofRows? rows

end Tree
end FunctionIndex
