import FunctionIndex.Json.Basic
import FunctionIndex.Json.Quoted
import FunctionIndex.Text.Decimal

/-! # Written JSON

The compact form has no blank outside quoted text. The indented form puts every item and every field
on a line of its own, two spaces deeper than its container, and a space after each colon; containers
without content stay `[]` and `{}`.
-/
namespace FunctionIndex.Json
set_option autoImplicit false

def integerChars : Int → List Char
  | .ofNat n => Text.Decimal.digits n
  | .negSucc n => '-' :: Text.Decimal.digits (n + 1)

def atomChars : Json → List Char
  | .null => "null".toList
  | .bool true => "true".toList
  | .bool false => "false".toList
  | .integer value => integerChars value
  | .fraction literal => literal.toList
  | .text value => Quoted.quote value.toList
  | .list _ => "[]".toList
  | .object _ => ['\x7b', '\x7d']

mutual

def compactChars : Json → List Char
  | .list (item :: items) => '[' :: (compactChars item ++ compactItems items)
  | .object (field :: fields) =>
    '\x7b' :: (Quoted.quote field.1.toList ++ ':' :: (compactChars field.2 ++ compactFields fields))
  | value => atomChars value

def compactItems : List Json → List Char
  | [] => [']']
  | item :: items => ',' :: (compactChars item ++ compactItems items)

def compactFields : List (String × Json) → List Char
  | [] => ['\x7d']
  | field :: fields =>
    ',' :: (Quoted.quote field.1.toList ++ ':' :: (compactChars field.2 ++ compactFields fields))

end

def newline (depth : Nat) : List Char := '\n' :: List.replicate (2 * depth) ' '

mutual

def indentedChars (depth : Nat) : Json → List Char
  | .list (item :: items) =>
    '[' :: (newline (depth + 1) ++ indentedChars (depth + 1) item ++ indentedItems depth items)
  | .object (field :: fields) =>
    '\x7b' :: (newline (depth + 1) ++ Quoted.quote field.1.toList ++ ':' :: ' ' ::
      (indentedChars (depth + 1) field.2 ++ indentedFields depth fields))
  | value => atomChars value

def indentedItems (depth : Nat) : List Json → List Char
  | [] => newline depth ++ [']']
  | item :: items =>
    ',' :: (newline (depth + 1) ++ indentedChars (depth + 1) item ++ indentedItems depth items)

def indentedFields (depth : Nat) : List (String × Json) → List Char
  | [] => newline depth ++ ['\x7d']
  | field :: fields =>
    ',' :: (newline (depth + 1) ++ Quoted.quote field.1.toList ++ ':' :: ' ' ::
      (indentedChars (depth + 1) field.2 ++ indentedFields depth fields))

end

def compact (value : Json) : String := String.ofList (compactChars value)

def indented (value : Json) : String := String.ofList (indentedChars 0 value)

end FunctionIndex.Json
