import FunctionIndex.Definition.Kind
import FunctionIndex.Text.Decimal
import FunctionIndex.Tree.Search

/-! # Names

A definition, a class or a namespace is named by one of its named children. Where it has none it
gets a name made of its first and last row, counted from one.
-/
namespace FunctionIndex
set_option autoImplicit false

def Label.anonymousName (label : Label) : String :=
  "anon-id-" ++ Text.Decimal.render (label.startRow + 1) ++ "-" ++
    Text.Decimal.render (label.endRow + 1)

namespace Cursor

/-- The text of the first named child of the first kind that has one. -/
def nameAmong (source : String) (c : Cursor) : List String → String
  | [] => c.label.anonymousName
  | kind :: kinds =>
    match c.namedChild? kind with
    | some child => child.normalizedText source
    | none => nameAmong source c kinds

def functionName (source : String) (c : Cursor) : String := c.nameAmong source Kind.functionNames

def macroName (source : String) (c : Cursor) : String := c.nameAmong source Kind.macroNames

def className (source : String) (c : Cursor) : String := c.nameAmong source Kind.classNames

def namespaceName (source : String) (c : Cursor) : String := c.nameAmong source Kind.namespaceNames

end Cursor
end FunctionIndex
