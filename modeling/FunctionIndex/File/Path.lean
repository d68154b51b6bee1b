/-! # Paths

A path keeps the spelling it was given. Two paths are the same when their components are: repeated
slashes, `.` after the beginning and anything of that kind at the end do not count, while a leading
`.` and every `..` do.
-/
namespace FunctionIndex
set_option autoImplicit false

structure Path where
  text : String
  deriving DecidableEq, Repr

inductive Path.Component where
  | root
  | current
  | parent
  | name (text : String)
  deriving DecidableEq, Repr

namespace Path

/-- The pieces between slashes, empty ones included. -/
def pieces (path : Path) : List String := (path.text.toList.splitOn '/').map String.ofList

def Component.ofPiece? (piece : String) : Option Component :=
  if piece = "" ∨ piece = "." then none
  else if piece = ".." then some .parent
  else some (.name piece)

def components (path : Path) : List Component :=
  let start : List Component :=
    if path.text.toList.head? = some '/' then [.root]
    else if path.pieces.head? = some "." then [.current]
    else []
  start ++ path.pieces.filterMap Component.ofPiece?

def same (p q : Path) : Bool := p.components == q.components

def fileName? (path : Path) : Option String :=
  match path.components.getLast? with
  | some (.name text) => some text
  | _ => none

/-- What follows the last dot of a name, unless the dot is its first character. -/
def extensionOf? (name : List Char) : Option (List Char) :=
  match name.reverse.dropWhile (· != '.') with
  | _ :: _ :: _ => some (name.reverse.takeWhile (· != '.')).reverse
  | _ => none

def extension? (path : Path) : Option String :=
  path.fileName?.bind fun name => (extensionOf? name.toList).map String.ofList

def join (path : Path) (name : String) : Path :=
  if path.text.toList.getLast? = some '/' then ⟨path.text ++ name⟩
  else ⟨path.text ++ "/" ++ name⟩

/-- Of paths with the same components only the first is kept. -/
def firstOfEach : List (List Component × Path) → List (List Component × Path)
  | [] => []
  | path :: paths => path :: (firstOfEach paths).filter fun other => path.1 != other.1

def distinct (paths : List Path) : List Path :=
  (firstOfEach (paths.map fun path => (path.components, path))).map (·.2)

theorem key_of_mem_firstOfEach {paths : List Path} {item : List Component × Path}
    (h : item ∈ firstOfEach (paths.map fun path => (path.components, path))) :
    item.1 = item.2.components := by
  induction paths with
  | nil => cases h
  | cons path paths ih =>
    rw [List.map_cons, firstOfEach] at h
    rcases List.mem_cons.mp h with rfl | h
    · rfl
    · exact ih (List.mem_filter.mp h).1

theorem distinct_cons (path : Path) (paths : List Path) :
    distinct (path :: paths) =
      path :: (distinct paths).filter fun other => !path.same other := by
  rw [distinct, distinct, List.map_cons, firstOfEach, List.map_cons, List.filter_map]
  congr 2
  apply List.filter_congr
  intro item h
  rw [key_of_mem_firstOfEach h]
  rfl

end Path
end FunctionIndex
