import FunctionIndex.File.Path

/-! # Directories

A directory holds files and folders, sorted by name. A path is resolved step by step from the
working directory. What lies outside of it is not known: leaving it leads to a folder that holds
nothing.
-/
namespace FunctionIndex
set_option autoImplicit false

inductive Entry where
  | file (name : String) (bytes : ByteArray)
  | folder (name : String) (entries : List Entry)

def Entry.name : Entry → String
  | .file name _ => name
  | .folder name _ => name

/-- The content of a folder, sorted by name without repetition. -/
abbrev Directory := List Entry

namespace Directory

def find? (directory : Directory) (name : String) : Option Entry :=
  List.find? (·.name == name) directory

def put (entry : Entry) : Directory → Directory
  | [] => [entry]
  | other :: others =>
    if entry.name = other.name then entry :: others
    else if entry.name < other.name then entry :: other :: others
    else other :: put entry others

def folder (directory : Directory) (name : String) : Directory :=
  match directory.find? name with
  | some (.folder _ entries) => entries
  | _ => []

/-- Adds a file with all folders on its way, or without bytes a folder. -/
def add (bytes : Option ByteArray) : List String → Directory → Directory
  | [], directory => directory
  | [name], directory =>
    match bytes with
    | some bytes => directory.put (.file name bytes)
    | none => directory.put (.folder name (directory.folder name))
  | name :: names, directory =>
    directory.put (.folder name (add bytes names (directory.folder name)))

end Directory

inductive ReadFault where
  | notFound
  | notADirectory
  | isADirectory
  | nameTooLong
  | notText
  | zeroInName
  deriving DecidableEq, Repr

def ReadFault.message : ReadFault → String
  | .notFound => "No such file or directory (os error 2)"
  | .notADirectory => "Not a directory (os error 20)"
  | .isADirectory => "Is a directory (os error 21)"
  | .nameTooLong => "File name too long (os error 36)"
  | .notText => "stream did not contain valid UTF-8"
  | .zeroInName => "file name contained an unexpected NUL byte"

/-- Where a path leads: to a file, or to a folder with the folders around it, nearest first. -/
inductive Place where
  | file (bytes : ByteArray)
  | folder (trail : List Directory)

namespace Place

def isFile : Place → Bool
  | .file _ => true
  | .folder _ => false

/-- The content of a folder; outside of the working directory nothing is known. -/
def content (trail : List Directory) : Directory := trail.headD []

/-- One step of a path. Also a step that stays in place needs a folder. -/
def step : Place → String → Except ReadFault Place
  | .file _, _ => .error .notADirectory
  | .folder trail, piece =>
    if piece = "" ∨ piece = "." then .ok (.folder trail)
    else if piece = ".." then .ok (.folder (trail.drop 1))
    else if 255 < piece.utf8ByteSize then .error .nameTooLong
    else match (content trail).find? piece with
      | some (.file _ bytes) => .ok (.file bytes)
      | some (.folder _ entries) => .ok (.folder (entries :: trail))
      | none => .error .notFound

end Place

namespace Directory

def maxPathLength : Nat := 4095

def canLookUp (path : Path) : Bool := path.text.utf8ByteSize ≤ maxPathLength

def resolve (directory : Directory) (path : Path) : Except ReadFault Place :=
  if path.text.toList.contains '\x00' then .error .zeroInName
  else if !canLookUp path then .error .nameTooLong
  else if path.text = "" then .error .notFound
  else
    let start := if path.text.toList.head? = some '/' then [] else [directory]
    path.pieces.foldlM Place.step (.folder start)

def isFile (directory : Directory) (path : Path) : Bool :=
  match directory.resolve path with
  | .ok place => place.isFile
  | .error _ => false

def read (directory : Directory) (path : Path) : Except ReadFault String :=
  match directory.resolve path with
  | .error fault => .error fault
  | .ok (.folder _) => .error .isADirectory
  | .ok (.file bytes) =>
    match String.fromUTF8? bytes with
    | some text => .ok text
    | none => .error .notText

end Directory
end FunctionIndex
