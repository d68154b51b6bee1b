import FunctionIndex.File.Directory
import FunctionIndex.Glob.Pattern

/-! # Glob matches

A pattern is followed component by component from the working directory. A literal component is
entered as it stands, so `..` works; a wild one goes through the folder's entries in order. Any
depth goes through all that is below, each folder before its content.

The path of a match can grow beyond what can be looked up. Such a path is not entered any further; a
folder that was listed in its own folder, but has such a path, cannot be listed itself.
-/
namespace FunctionIndex.Glob
set_option autoImplicit false

structure Match where
  path : Path
  /-- What is there, if the path could be looked up or is listed in its folder. -/
  place : Option Place

structure Unreadable where
  path : Path
  fault : ReadFault
  deriving DecidableEq, Repr

def Unreadable.message (folder : Unreadable) : String :=
  "attempting to read `" ++ folder.path.text ++ "` resulted in an error: " ++ folder.fault.message

/-- Whether a path is spelled as the working directory; its entries then carry no folder. Only a
path that begins with a dot is taken apart. -/
def isHere (path : Path) : Bool :=
  path.text.toList.head? == some '.' && path.components == [.current]

def child (path : Path) (name : String) : Path := if isHere path then ⟨name⟩ else path.join name

abbrev Listing := List (Except Unreadable (String × Match))

def listed (path : Path) (content : Listing) : Listing :=
  if Directory.canLookUp path then content else [.error ⟨path, .nameTooLong⟩]

namespace Match

def isFolder (found : Match) : Bool :=
  match found.place with
  | some (.folder _) => true
  | _ => false

def lookUp? (found : Match) (path : Path) (name : String) : Option Place :=
  if Directory.canLookUp path then found.place.bind fun place => (place.step name).toOption
  else none

/-- Enters a literal component. The entries `.` and `..` are in every folder; anything else has to
be found, and the empty path names nothing. -/
def enter? (found : Match) (name : String) : Option Match :=
  let path := child found.path name
  let place := found.lookUp? path name
  if name = "." ∨ name = ".." then
    if found.isFolder then some ⟨path, place⟩ else none
  else if path.text = "" ∨ place.isNone then none
  else some ⟨path, place⟩

def ofEntry (path : Path) (trail : List Directory) : Entry → Match
  | .file name bytes => ⟨child path name, some (.file bytes)⟩
  | .folder name entries => ⟨child path name, some (.folder (entries :: trail))⟩

def entries (found : Match) : Listing :=
  match found.place with
  | some (.folder trail) =>
    listed found.path <| (Place.content trail).map fun entry =>
      .ok (entry.name, ofEntry found.path trail entry)
  | _ => []

/-- The entries `..` and `.`, which only a component that begins with a dot can match. -/
def dotEntries (tokens : List Token) (found : Match) : List Match :=
  if tokens.head? = some (.char '.') ∧ found.isFolder ∧ Directory.canLookUp found.path then
    (["..", "."].filter fun name => fits tokens name.toList).map fun name =>
      let path := found.path.join name
      ⟨path, found.lookUp? path name⟩
  else []

mutual

def belowEntry (path : Path) (trail : List Directory) : Entry → Listing
  | .file name bytes => [.ok (name, ⟨child path name, some (.file bytes)⟩)]
  | .folder name entries =>
    .ok (name, ⟨child path name, some (.folder (entries :: trail))⟩) ::
      listed (child path name) (belowEntries (child path name) (entries :: trail) entries)

def belowEntries (path : Path) (trail : List Directory) : List Entry → Listing
  | [] => []
  | entry :: entries => belowEntry path trail entry ++ belowEntries path trail entries

end

def below (found : Match) : Listing :=
  match found.place with
  | some (.folder trail) =>
    listed found.path (belowEntries found.path trail (Place.content trail))
  | _ => []

end Match

/-- Goes on from the entries that are wanted; folders that cannot be listed are kept in order. -/
def follow (wanted : String → Match → Bool) (next : Match → List (Except Unreadable Match))
    (listing : Listing) : List (Except Unreadable Match) :=
  listing.flatMap fun item =>
    match item with
    | .ok (name, found) => if wanted name found then next found else []
    | .error folder => [.error folder]

/-- Any depth at the end stands for the folders below. -/
def expandFrom : List Part → Match → List (Except Unreadable Match)
  | [], found => [.ok found]
  | .literal name :: parts, found =>
    match found.enter? name with
    | some next => expandFrom parts next
    | none => []
  | .wild tokens :: parts, found =>
    (found.dotEntries tokens).flatMap (expandFrom parts) ++
      follow (fun name _ => fits tokens name.toList) (expandFrom parts) found.entries
  | [.depth], found => follow (fun _ entry => entry.isFolder) (fun entry => [.ok entry]) found.below
  | .depth :: part :: parts, found =>
    follow (fun name _ => part.fits name) (expandFrom parts) found.below

namespace Pattern

def expand (directory : Directory) (pattern : Pattern) : List (Except Unreadable Match) :=
  let start : Match :=
    if pattern.rooted then ⟨⟨"/"⟩, some (.folder [])⟩
    else ⟨⟨"."⟩, some (.folder [directory])⟩
  expandFrom pattern.parts start

def files (directory : Directory) (pattern : Pattern) : List Path :=
  (pattern.expand directory).filterMap fun result =>
    match result with
    | .ok found =>
      if (pattern.foldersOnly && !found.isFolder) || !directory.isFile found.path then none
      else some found.path
    | .error _ => none

def unreadable (directory : Directory) (pattern : Pattern) : List Unreadable :=
  (pattern.expand directory).filterMap fun result =>
    match result with
    | .ok _ => none
    | .error folder => some folder

end Pattern
end FunctionIndex.Glob
