import FunctionIndex.Json.Basic
import FunctionIndex.Json.Quoted
import FunctionIndex.Text.Decimal

/-! # Reading JSON

A value is read from the front of a text. Every call uses one unit of fuel; the length of the text
is enough fuel for all of it, so `parse?` shows none.
-/
namespace FunctionIndex.Json
set_option autoImplicit false

def isLayout (c : Char) : Bool := c = ' ' || c = '\n' || c = '\r' || c = '\t'

def skipLayout (input : List Char) : List Char := input.dropWhile isLayout

def strip? (word : List Char) (input : List Char) : Option (List Char) :=
  if word.isPrefixOf input then some (input.drop word.length) else none

def digits? (input : List Char) : Option (List Char × List Char) :=
  match input.takeWhile Char.isDigit with
  | [] => none
  | digits => some (digits, input.dropWhile Char.isDigit)

def fractionPart? : List Char → Option (List Char × List Char)
  | '.' :: rest => (digits? rest).map fun part => ('.' :: part.1, part.2)
  | rest => some ([], rest)

def exponentPart? : List Char → Option (List Char × List Char)
  | c :: rest =>
    if c = 'e' ∨ c = 'E' then
      match rest with
      | '+' :: rest => (digits? rest).map fun part => (c :: '+' :: part.1, part.2)
      | '-' :: rest => (digits? rest).map fun part => (c :: '-' :: part.1, part.2)
      | rest => (digits? rest).map fun part => (c :: part.1, part.2)
    else some ([], c :: rest)
  | [] => some ([], [])

/-- A number after its sign. Leading zeros are refused. -/
def number? (negative : Bool) (input : List Char) : Option (Json × List Char) := do
  let (whole, rest) ← digits? input
  if whole.head? = some '0' ∧ whole.length ≠ 1 then none
  let (decimals, rest) ← fractionPart? rest
  let (exponent, rest) ← exponentPart? rest
  let tail := decimals ++ exponent
  let value := Text.Decimal.value whole
  if !tail.isEmpty || (negative && value == 0) then
    let sign := if negative then ['-'] else []
    return (.fraction (String.ofList (sign ++ whole ++ tail)), rest)
  else return (.integer (if negative then -value else value), rest)

def key? (input : List Char) : Option (String × List Char) := do
  match skipLayout input with
  | '"' :: rest =>
    let (key, rest) ← Quoted.decode? rest
    match skipLayout rest with
    | ':' :: rest => return (String.ofList key, rest)
    | _ => none
  | _ => none

mutual

def value? : Nat → List Char → Option (Json × List Char)
  | 0, _ => none
  | fuel + 1, input =>
    match skipLayout input with
    | '"' :: rest => (Quoted.decode? rest).map fun part => (.text (String.ofList part.1), part.2)
    | '[' :: rest =>
      match skipLayout rest with
      | ']' :: rest => some (.list [], rest)
      | rest => (items? fuel rest).map fun part => (.list part.1, part.2)
    | '\x7b' :: rest =>
      match skipLayout rest with
      | '\x7d' :: rest => some (.object [], rest)
      | rest => (fields? fuel rest).map fun part => (.object part.1, part.2)
    | 'n' :: rest => (strip? "ull".toList rest).map (.null, ·)
    | 't' :: rest => (strip? "rue".toList rest).map (.bool true, ·)
    | 'f' :: rest => (strip? "alse".toList rest).map (.bool false, ·)
    | '-' :: rest => number? true rest
    | rest => number? false rest

def items? : Nat → List Char → Option (List Json × List Char)
  | 0, _ => none
  | fuel + 1, input => do
    let (item, rest) ← value? fuel input
    match skipLayout rest with
    | ',' :: rest =>
      let (items, rest) ← items? fuel rest
      return (item :: items, rest)
    | ']' :: rest => return ([item], rest)
    | _ => none

def fields? : Nat → List Char → Option (List (String × Json) × List Char)
  | 0, _ => none
  | fuel + 1, input => do
    let (key, rest) ← key? input
    let (value, rest) ← value? fuel rest
    match skipLayout rest with
    | ',' :: rest =>
      let (fields, rest) ← fields? fuel rest
      return ((key, value) :: fields, rest)
    | '\x7d' :: rest => return ([(key, value)], rest)
    | _ => none

end

def parse? (input : String) : Option Json := do
  let chars := input.toList
  let (value, rest) ← value? (chars.length + 1) chars
  if (skipLayout rest).isEmpty then return value else none

end FunctionIndex.Json
