import FunctionIndex.Proofs.Json.Layout
import FunctionIndex.Proofs.Text.Decimal

/-! # Blanks outside quoted text

A scan from left to right knows whether it stands in quoted text and whether the character before it
was a backslash there. Dropping the blanks that stand outside leaves the compact form of a value,
whatever its layout was.
-/
namespace FunctionIndex.Json
set_option autoImplicit false

inductive Mode where
  | outside
  | quoted
  | escaped
  deriving DecidableEq, Repr

def Mode.next (c : Char) : Mode → Mode
  | .outside => if c = '"' then .quoted else .outside
  | .quoted => if c = '"' then .outside else if c = '\\' then .escaped else .quoted
  | .escaped => .quoted

def dropBlanksFrom (mode : Mode) : List Char → List Char
  | [] => []
  | c :: rest =>
    if mode = .outside ∧ Text.isBlank c = true then dropBlanksFrom mode rest
    else c :: dropBlanksFrom (mode.next c) rest

def dropBlanks (text : List Char) : List Char := dropBlanksFrom .outside text

/-- Of this text, read from outside of quoted text, just `kept` is left, and it ends outside. -/
def LeavesOf (text kept : List Char) : Prop :=
  ∀ rest, dropBlanks (text ++ rest) = kept ++ dropBlanks rest

theorem LeavesOf.append {text text' kept kept' : List Char} (h : LeavesOf text kept)
    (h' : LeavesOf text' kept') : LeavesOf (text ++ text') (kept ++ kept') := by
  intro rest
  rw [List.append_assoc, h, h', List.append_assoc]

namespace Layout

variable (layout : Layout)

end Layout

end FunctionIndex.Json
