import FunctionIndex.Tree.Cursor
import FunctionIndex.Text.Spacing
import FunctionIndex.Text.Utf8

/-! # Searching a tree

Nodes are looked up by kind: below a node in document order, among its children, and above it from
the nearest ancestor outwards. The text of a node is read off the source at the node's bytes.
-/
namespace FunctionIndex.Cursor
set_option autoImplicit false

def hasKindIn (kinds : List String) (c : Cursor) : Bool := kinds.contains c.kind

/-- The nodes of some kinds in the subtree of `c`, in document order. -/
def findKinds (kinds : List String) (c : Cursor) : List Cursor := c.walk.filter (hasKindIn kinds)

def namedChild? (kind : String) (c : Cursor) : Option Cursor :=
  c.children.find? fun child => child.label.named && child.kind == kind

def ancestorOfKinds? (kinds : List String) (c : Cursor) : Option Cursor :=
  c.ancestors.find? (hasKindIn kinds)

def ancestorsOfKind (kind : String) (c : Cursor) : List Cursor :=
  c.ancestors.filter (·.kind == kind)

def text (source : String) (c : Cursor) : String :=
  Text.Utf8.slice source c.label.startByte c.label.endByte

def normalizedText (source : String) (c : Cursor) : String := Text.normalize (c.text source)

end FunctionIndex.Cursor
