import FunctionIndex.File.Path

/-! # Languages

The languages whose files are indexed, and how the end of a file's name tells them apart. Whatever
is not known to be C is taken for C++.
-/
namespace FunctionIndex
set_option autoImplicit false

inductive Language where
  | c
  | cpp
  deriving DecidableEq, Repr

namespace Language

def all : List Language := [.c, .cpp]

def name : Language → String
  | .c => "c"
  | .cpp => "cpp"

def ofName? (name : String) : Option Language := all.find? (·.name == name)

def extensions : Language → List String
  | .c => ["c"]
  | .cpp =>
    ["cpp", "cc", "cxx", "c++", "h", "hpp", "hh", "hxx", "h++", "ipp", "tpp", "inl"]

def ofExtension? (extension : String) : Option Language :=
  all.find? (·.extensions.contains extension)

def ofPath (path : Path) : Language := (path.extension?.bind ofExtension?).getD .cpp

end Language
end FunctionIndex
