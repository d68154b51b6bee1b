import FunctionIndex.Definition.Name

/-! # Scope

A function belongs to the nearest class or struct around it and to all namespaces around it. The
namespaces are joined from the innermost outwards.
-/
namespace FunctionIndex.Cursor
set_option autoImplicit false

def enclosingClass (source : String) (c : Cursor) : Option String :=
  (c.ancestorOfKinds? Kind.classes).map (className source)

def enclosingNamespaces (source : String) (c : Cursor) : List String :=
  (c.ancestorsOfKind Kind.namespaceDefinition).map (namespaceName source)

def scope (source : String) (c : Cursor) : Option String :=
  match c.enclosingNamespaces source with
  | [] => none
  | names => some (String.intercalate "::" names)

end FunctionIndex.Cursor
