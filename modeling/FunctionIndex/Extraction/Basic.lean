import FunctionIndex.Definition.Extract
import FunctionIndex.Extraction.Error
import FunctionIndex.Language

/-! # Extraction from sources and files

The parser is a parameter: it gives the tree of a source in a language. A file is read before its
language is looked at. In a batch each file succeeds or fails on its own.
-/
namespace FunctionIndex
set_option autoImplicit false

abbrev Parser := Language → String → Option Tree

structure FileDefinitions where
  path : Path
  language : String
  definitions : List Definition

def FileDefinitions.toRecords (content : FileDefinitions) : FileRecords :=
  { file := content.path.text
    language := content.language
    records := content.definitions.map (·.record) }

namespace Parser

def extractSource (parser : Parser) (source language : String) :
    Except ExtractionError (List Definition) :=
  match Language.ofName? language with
  | none => .error (.unsupportedLanguage language)
  | some known =>
    match parser known source with
    | none => .error (.parse (language ++ " source"))
    | some tree => .ok (tree.definitions source)

/-- Without a forced language the path decides. -/
def extractFile (parser : Parser) (directory : Directory) (forced : Option String) (path : Path) :
    Except ExtractionError FileDefinitions :=
  let language := forced.getD (Language.ofPath path).name
  match directory.read path with
  | .error fault => .error (.read path fault)
  | .ok source =>
    match parser.extractSource source language with
    | .ok definitions => .ok { path, language, definitions }
    | .error (.parse _) => .error (.parse path.text)
    | .error other => .error other

def extractFiles (parser : Parser) (directory : Directory) (forced : Option String)
    (paths : List Path) : List (Except ExtractionError FileDefinitions) :=
  paths.map (parser.extractFile directory forced)

end Parser
end FunctionIndex
