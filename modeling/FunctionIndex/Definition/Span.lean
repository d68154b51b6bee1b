import FunctionIndex.Tree.Basic

/-! # Line spans

The first and the last line of a node, counted from one in 32 bits. A function-like macro has no
terminator: its node runs through the line end onto the next line, which does not belong to it.
-/
namespace FunctionIndex
set_option autoImplicit false

structure Span where
  start : UInt32
  stop : UInt32
  deriving DecidableEq, Repr

/-- The last line is never before the first. -/
def Label.span (label : Label) (ofMacro : Bool) : Span :=
  let start := label.startRow.toUInt32 + 1
  let stop := label.endRow.toUInt32 + 1
  let stop := if ofMacro then stop - 1 else stop
  ⟨start, max stop start⟩

end FunctionIndex
