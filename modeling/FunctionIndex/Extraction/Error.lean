import FunctionIndex.File.Directory

/-! # Failed extractions

Why the definitions of a source cannot be listed, and the text that says so. There is no error for a
grammar that cannot be set up: the grammars of both languages are part of the parser and fit it, so
the setup never fails.
-/
namespace FunctionIndex
set_option autoImplicit false

inductive ExtractionError where
  | unsupportedLanguage (name : String)
  | read (path : Path) (fault : ReadFault)
  | parse (what : String)
  deriving DecidableEq, Repr

def ExtractionError.message : ExtractionError → String
  | .unsupportedLanguage name => "unsupported language: '" ++ name ++ "' (supported: c, cpp)"
  | .read path fault => "failed to read " ++ path.text ++ ": " ++ fault.message
  | .parse what => "failed to parse " ++ what

end FunctionIndex
