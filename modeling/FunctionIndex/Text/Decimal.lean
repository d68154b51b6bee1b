/-! # Decimal numerals

Numbers are written in decimal digits without leading zeros and read back from any run of digits.
-/
namespace FunctionIndex.Text.Decimal
set_option autoImplicit false

def digits (n : Nat) : List Char := Nat.toDigits 10 n

def render (n : Nat) : String := String.ofList (digits n)

def value (text : List Char) : Nat := Nat.ofDigitChars 10 text 0

def value? (text : List Char) : Option Nat :=
  if text.isEmpty || text.any (!·.isDigit) then none else some (value text)

end FunctionIndex.Text.Decimal
