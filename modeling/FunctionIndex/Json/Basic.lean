/-! # JSON values

Numbers written as integers are kept apart from all other numbers, because line numbers have to be
written as integers. Fields keep the order in which they are written.
-/
namespace FunctionIndex
set_option autoImplicit false

inductive Json where
  | null
  | bool (value : Bool)
  | integer (value : Int)
  /-- A number with a fraction or an exponent, or the number `-0`, as it is written. -/
  | fraction (literal : String)
  | text (value : String)
  | list (items : List Json)
  | object (fields : List (String × Json))
  deriving Inhabited

namespace Json

/-- The fields in force: of a key that is repeated only the last field counts. -/
def latest : List (String × Json) → List (String × Json)
  | [] => []
  | field :: rest =>
    let later := latest rest
    if later.any (·.1 == field.1) then later else field :: later

def lookup (key : String) (fields : List (String × Json)) : Option Json :=
  ((latest fields).find? (·.1 == key)).map (·.2)

def field? (value : Json) (key : String) : Option Json :=
  match value with
  | .object fields => lookup key fields
  | _ => none

def text? : Json → Option String
  | .text value => some value
  | _ => none

def bool? : Json → Option Bool
  | .bool value => some value
  | _ => none

def int? : Json → Option Int
  | .integer value => some value
  | _ => none

def nat? : Json → Option Nat
  | .integer (.ofNat value) => some value
  | _ => none

def list? : Json → Option (List Json)
  | .list items => some items
  | _ => none

end Json
end FunctionIndex
