/-! # Properties of definitions

The qualifiers that an index entry can carry, and the keyword that each is written with.
-/
namespace FunctionIndex
set_option autoImplicit false

inductive Property where
  | template
  | functionMacro
  | static
  | virtual
  | override
  | volatile
  | const
  deriving DecidableEq, Repr

namespace Property

def all : List Property :=
  [.template, .functionMacro, .static, .virtual, .override, .volatile, .const]

/-- The properties that stand inside a declarator, in the order in which they are looked for. -/
def embedded : List Property := [.override, .volatile, .const]

def keyword : Property → String
  | .template => "template"
  | .functionMacro => "macro"
  | .static => "static"
  | .virtual => "virtual"
  | .override => "override"
  | .volatile => "volatile"
  | .const => "const"

def ofKeyword? (word : String) : Option Property := all.find? (·.keyword == word)

theorem mem_all (property : Property) : property ∈ all := by
  cases property <;> decide

theorem ofKeyword?_keyword (property : Property) :
    ofKeyword? property.keyword = some property := by
  cases property <;> decide

def insert (properties : List Property) (property : Property) : List Property :=
  if properties.contains property then properties else properties ++ [property]

end Property
end FunctionIndex
