import FunctionIndex.Definition.Property

/-! # Index entries

An entry describes one definition: its name, its first and last line (counted from one), the class
and the namespaces around it, and its properties.
-/
namespace FunctionIndex
set_option autoImplicit false

structure Record where
  name : String
  start : UInt32
  stop : UInt32
  className : Option String
  scope : Option String
  properties : List Property
  deriving DecidableEq, Repr

namespace Record

def has (record : Record) (property : Property) : Bool := record.properties.contains property

def isMacro (record : Record) : Bool := record.has .functionMacro

end Record

structure FileRecords where
  file : String
  language : String
  records : List Record
  deriving DecidableEq, Repr

end FunctionIndex
