import FunctionIndex.Definition.Qualifier
import FunctionIndex.Definition.Record
import FunctionIndex.Definition.Scope
import FunctionIndex.Definition.Span

/-! # The definitions of a tree

Definitions are collected in document order. Each one is then described on its own: its name and
properties from its children, its class and namespaces from its ancestors.
-/
namespace FunctionIndex
set_option autoImplicit false

inductive Form where
  | function
  | functionMacro
  deriving DecidableEq, Repr

def Form.kind : Form → String
  | .function => Kind.functionDefinition
  | .functionMacro => Kind.macroDefinition

structure Definition where
  form : Form
  record : Record
  deriving DecidableEq, Repr

namespace Cursor

/-- A template's definition stands directly below the template's declaration. -/
def isTemplateMember (c : Cursor) : Bool :=
  match c.parent? with
  | some parent => parent.kind == Kind.templateDeclaration
  | none => false

def specifier? (source : String) (child : Cursor) : Option Property :=
  if child.kind = Kind.storageClass then
    if child.text source = "static" then some .static else none
  else if child.kind = Kind.virtualSpecifier then
    if child.text source = "virtual" then some .virtual else none
  else if child.kind = Kind.virtualKeyword then some .virtual
  else none

def structuralProperties (source : String) (c : Cursor) : List Property :=
  (c.children.filterMap (specifier? source)).foldl Property.insert
    (if c.isTemplateMember then [.template] else [])

def functionRecord (source : String) (c : Cursor) : Record :=
  let span := c.label.span false
  let (name, embedded) := Qualifier.strip (c.functionName source)
  { name
    start := span.start
    stop := span.stop
    className := c.enclosingClass source
    scope := c.scope source
    properties := embedded.foldl Property.insert (c.structuralProperties source) }

def macroRecord (source : String) (c : Cursor) : Record :=
  let span := c.label.span true
  { name := c.macroName source
    start := span.start
    stop := span.stop
    className := none
    scope := none
    properties := [.functionMacro] }

def definition (source : String) (c : Cursor) : Definition :=
  if c.kind = Kind.macroDefinition then ⟨.functionMacro, c.macroRecord source⟩
  else ⟨.function, c.functionRecord source⟩

end Cursor

namespace Tree

def definitions (source : String) (tree : Tree) : List Definition :=
  ((Cursor.root tree).findKinds Kind.definitions).map (Cursor.definition source)

def records (source : String) (tree : Tree) : List Record :=
  (tree.definitions source).map (·.record)

end Tree
end FunctionIndex
