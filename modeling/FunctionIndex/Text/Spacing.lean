import FunctionIndex.Text.Blank

/-! # Spacing

Normal spacing has single spaces between words and no blank at either end. A text is brought to it
in two steps: every run of blanks becomes one space, then both ends are trimmed.
-/
namespace FunctionIndex.Text
set_option autoImplicit false

/-- Every run of blanks becomes one space; `inRun` tells that the space of the current run is
already written. -/
def collapseFrom (inRun : Bool) : List Char → List Char
  | [] => []
  | c :: rest =>
    if isBlank c then
      if inRun then collapseFrom true rest else ' ' :: collapseFrom true rest
    else c :: collapseFrom false rest

def collapse (text : List Char) : List Char := collapseFrom false text

def trimStart (text : List Char) : List Char := text.dropWhile isBlank

def trimEnd (text : List Char) : List Char := (text.reverse.dropWhile isBlank).reverse

def trim (text : List Char) : List Char := trimEnd (trimStart text)

def normalizeChars (text : List Char) : List Char := trim (collapse text)

def normalize (text : String) : String := String.ofList (normalizeChars text.toList)

end FunctionIndex.Text
