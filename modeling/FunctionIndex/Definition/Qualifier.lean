import FunctionIndex.Definition.Property
import FunctionIndex.Text.Spacing

/-! # Qualifiers inside a declarator

A declarator's text can hold the keywords `override`, `volatile` and `const`. Each of them is looked
for once, as text after a space: the last place where it stands is cut out, the spacing is made
normal again, and the property is noted.
-/
namespace FunctionIndex.Qualifier
set_option autoImplicit false

/-- What stands before and after the last occurrence of `word`. -/
def splitLast? (word : List Char) : List Char → Option (List Char × List Char)
  | [] => none
  | c :: rest =>
    match splitLast? word rest with
    | some (before, after) => some (c :: before, after)
    | none =>
      if word.isPrefixOf (c :: rest) then some ([], (c :: rest).drop word.length) else none

def token (property : Property) : List Char := ' ' :: property.keyword.toList

def cut? (property : Property) (name : List Char) : Option (List Char) :=
  (splitLast? (token property) name).map fun parts =>
    Text.normalizeChars (parts.1 ++ ' ' :: parts.2)

def stripFrom (name : List Char) : List Property → List Char × List Property
  | [] => (name, [])
  | property :: properties =>
    match cut? property name with
    | some rest =>
      let (name, found) := stripFrom rest properties
      (name, property :: found)
    | none => stripFrom name properties

def strip (name : String) : String × List Property :=
  let (rest, found) := stripFrom name.toList Property.embedded
  (String.ofList rest, found)

end FunctionIndex.Qualifier
