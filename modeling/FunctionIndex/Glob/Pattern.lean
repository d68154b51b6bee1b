/-! # Glob patterns

In a pattern `?` stands for one character, `*` for any run of characters, and brackets for one
character of a set, or outside of it after `!`. Two stars stand for any depth of folders and have to
be a whole component. Everything else stands for itself.
-/
namespace FunctionIndex.Glob
set_option autoImplicit false

structure Range where
  first : Char
  last : Char
  deriving DecidableEq, Repr

def Range.contains (range : Range) (c : Char) : Bool := range.first ≤ c && c ≤ range.last

inductive Token where
  | char (c : Char)
  | any
  | run
  | depth
  | within (set : List Range)
  | outside (set : List Range)
  deriving DecidableEq, Repr

inductive Fault where
  | wildcards
  | recursion
  | range
  deriving DecidableEq, Repr

structure Error where
  position : Nat
  fault : Fault
  deriving DecidableEq, Repr

def Fault.message : Fault → String
  | .wildcards => "wildcards are either regular `*` or recursive `**`"
  | .recursion => "recursive wildcards must form a single path component"
  | .range => "invalid range pattern"

def ranges : List Char → List Range
  | first :: '-' :: last :: rest => ⟨first, last⟩ :: ranges rest
  | c :: rest => ⟨c, c⟩ :: ranges rest
  | [] => []

def closing? : List Char → Option (List Char × List Char)
  | [] => none
  | c :: rest =>
    if c = ']' then some ([], rest)
    else (closing? rest).map fun parts => (c :: parts.1, parts.2)

/-- The set that follows an opening bracket, and what follows the set. The first member may be the
closing bracket itself. -/
def set? : List Char → Option (Token × List Char)
  | '!' :: first :: rest =>
    (closing? rest).map fun parts => (.outside (ranges (first :: parts.1)), parts.2)
  | '!' :: [] => none
  | first :: rest => (closing? rest).map fun parts => (.within (ranges (first :: parts.1)), parts.2)
  | [] => none

theorem length_closing {text : List Char} {parts : List Char × List Char}
    (h : closing? text = some parts) : parts.2.length < text.length := by
  induction text generalizing parts with
  | nil => cases h
  | cons c rest ih =>
    rw [closing?] at h
    split at h
    · cases h
      exact Nat.lt_succ_self _
    · obtain ⟨inner, hInner, rfl⟩ := Option.map_eq_some_iff.mp h
      have hLess := ih hInner
      simp only [List.length_cons]
      omega

theorem length_set {text : List Char} {result : Token × List Char} (h : set? text = some result) :
    result.2.length < text.length := by
  rw [set?.eq_def] at h
  split at h
  · obtain ⟨parts, hParts, rfl⟩ := Option.map_eq_some_iff.mp h
    have hLess := length_closing hParts
    simp only [List.length_cons]
    omega
  · cases h
  · obtain ⟨parts, hParts, rfl⟩ := Option.map_eq_some_iff.mp h
    have hLess := length_closing hParts
    simp only [List.length_cons]
    omega
  · cases h

/-- The tokens of a text that begins at `position`, after the character `previous`. A slash after
two stars belongs to them. -/
def parseFrom (position : Nat) (previous : Option Char) (text : List Char) :
    Except Error (List Token) :=
  match text with
  | [] => .ok []
  | '*' :: '*' :: '*' :: _ => .error ⟨position + 2, .wildcards⟩
  | '*' :: '*' :: rest =>
    if previous = none ∨ previous = some '/' then
      match rest with
      | [] => .ok [.depth]
      | '/' :: rest => (parseFrom (position + 3) (some '/') rest).map (.depth :: ·)
      | _ => .error ⟨position + 2, .recursion⟩
    else .error ⟨position - 1, .recursion⟩
  | '*' :: rest => (parseFrom (position + 1) (some '*') rest).map (.run :: ·)
  | '?' :: rest => (parseFrom (position + 1) (some '?') rest).map (.any :: ·)
  | '[' :: rest =>
    match _h : set? rest with
    | none => .error ⟨position, .range⟩
    | some (token, after) =>
      have _hLess : after.length < rest.length := length_set _h
      let width := rest.length + 1 - after.length
      (parseFrom (position + width) (some ']') after).map (token :: ·)
  | c :: rest => (parseFrom (position + 1) (some c) rest).map (.char c :: ·)
termination_by text.length
decreasing_by
  all_goals simp only [List.length_cons]
  all_goals omega

def parse (text : List Char) : Except Error (List Token) := parseFrom 0 none text

def Token.accepts (c : Char) : Token → Bool
  | .char x => x == c
  | .any => true
  | .within set => set.any (·.contains c)
  | .outside set => !set.any (·.contains c)
  | .run => false
  | .depth => false

/-- At each place, whether there is a hit there or later. -/
def hitsFrom : List Bool → List Bool
  | [] => []
  | hit :: hits =>
    let later := hitsFrom hits
    (hit || later.headD false) :: later

/-- For every end of the name, from the whole name to the empty one, whether it fits the tokens. The
answers for all tokens but the first give those for all, so the work is the product of both
lengths. -/
def endsFit (name : List Char) : List Token → List Bool
  | [] => name.map (fun _ => false) ++ [true]
  | .run :: tokens => hitsFrom (endsFit name tokens)
  | token :: tokens =>
    List.zipWith (fun c fit => token.accepts c && fit) name (endsFit name tokens).tail ++ [false]

def fits (tokens : List Token) (name : List Char) : Bool := (endsFit name tokens).headD false

inductive Part where
  | literal (text : String)
  | wild (tokens : List Token)
  | depth
  deriving DecidableEq, Repr

def Token.char? : Token → Option Char
  | .char c => some c
  | _ => none

def Part.ofTokens (tokens : List Token) : Part :=
  if tokens = [.depth] then .depth
  else match tokens.mapM Token.char? with
    | some text => .literal (String.ofList text)
    | none => .wild tokens

def Part.fits (name : String) : Part → Bool
  | .literal text => text == name
  | .wild tokens => Glob.fits tokens name.toList
  | .depth => false

structure Pattern where
  rooted : Bool
  parts : List Part
  foldersOnly : Bool

/-- The components between slashes; a slash at the end makes none, and a pattern without components
has one empty component. -/
def pieces (body : List Char) : List (List Char) :=
  let all := body.splitOn '/'
  if body.isEmpty then [[]]
  else if all.getLast? = some [] then all.dropLast
  else all

def mergeDepths : List Part → List Part
  | .depth :: .depth :: parts => mergeDepths (.depth :: parts)
  | part :: parts => part :: mergeDepths parts
  | [] => []

/-- A pattern has to be right as a whole before each of its components is read by itself. -/
def Pattern.parse (text : String) : Except Error Pattern := do
  let chars := text.toList
  let _ ← Glob.parse chars
  let rooted := chars.head? = some '/'
  let tokens ← (pieces (if rooted then chars.drop 1 else chars)).mapM Glob.parse
  return {
    rooted
    parts := mergeDepths (tokens.map Part.ofTokens)
    foldersOnly := chars.getLast? = some '/' }

end FunctionIndex.Glob
