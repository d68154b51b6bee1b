import FunctionIndex.Language
import FunctionIndex.Report.Basic
import FunctionIndex.Text.Decimal

/-! # Arguments

Arguments are read from left to right. The first one that cannot be accepted ends the reading, and
so does a request for the version or for help; what follows is not looked at.

An option that takes a value takes the rest of its own argument, after an equals sign if there is
one, or else the next argument, which then must not look like an option.
-/
namespace FunctionIndex.Command
set_option autoImplicit false

inductive Switch where
  | file
  | glob
  | language
  | format
  | threads
  | verbose
  | version
  | help
  deriving DecidableEq, Repr

namespace Switch

def all : List Switch :=
  [.file, .glob, .language, .format, .threads, .verbose, .version, .help]

def longName : Switch → String
  | .file => "file"
  | .glob => "glob"
  | .language => "language"
  | .format => "format"
  | .threads => "threads"
  | .verbose => "verbose"
  | .version => "version"
  | .help => "help"

def shortName? : Switch → Option Char
  | .file => some 'f'
  | .glob => some 'g'
  | .verbose => some 'v'
  | .version => some 'V'
  | .help => some 'h'
  | _ => none

def takesValue : Switch → Bool
  | .verbose | .version | .help => false
  | _ => true

def ofLong? (name : String) : Option Switch := all.find? (·.longName == name)

def ofShort? (c : Char) : Option Switch := all.find? (·.shortName? == some c)

end Switch

structure Options where
  files : List Path := []
  globs : List String := []
  language : Option Language := none
  format : Option Report.Format := none
  threads : Option Nat := none
  verbose : Bool := false

inductive Request where
  | run (options : Options)
  | version
  | help

inductive Refusal where
  | unknown (argument : String)
  | unexpected (argument : String)
  | missingValue (switch : Switch)
  | unexpectedValue (switch : Switch)
  | badValue (switch : Switch) (value : String)
  | repeated (switch : Switch)
  deriving DecidableEq, Repr

def maxThreads : Nat := 18446744073709551615

/-- Digits, after a plus sign if there is one. -/
def threads? (value : List Char) : Option Nat :=
  let digits := match value with
    | '+' :: rest => rest
    | digits => digits
  (Text.Decimal.value? digits).filter (· ≤ maxThreads)

namespace Options

/-- Gives an option its value. Only files and globs can be given more than once. -/
def set (options : Options) (switch : Switch) (value : String) : Except Refusal Options :=
  let bad := .error (.badValue switch value)
  match switch with
  | .file => if value = "" then bad else .ok { options with files := options.files ++ [⟨value⟩] }
  | .glob => .ok { options with globs := options.globs ++ [value] }
  | .language =>
    match Language.ofName? value with
    | none => bad
    | some language =>
      if options.language.isSome then .error (.repeated switch)
      else .ok { options with language := some language }
  | .format =>
    match Report.Format.ofName? value with
    | none => bad
    | some format =>
      if options.format.isSome then .error (.repeated switch)
      else .ok { options with format := some format }
  | .threads =>
    match threads? value.toList with
    | none => bad
    | some count =>
      if options.threads.isSome then .error (.repeated switch)
      else .ok { options with threads := some count }
  | .verbose | .version | .help => .error (.unexpectedValue switch)

end Options

inductive Progress where
  | ready (options : Options)
  | awaiting (options : Options) (switch : Switch)
  | done (request : Request)

def turnOn (options : Options) : Switch → Except Refusal Progress
  | .verbose =>
    if options.verbose then .error (.repeated .verbose)
    else .ok (.ready { options with verbose := true })
  | .version => .ok (.done .version)
  | .help => .ok (.done .help)
  | switch => .ok (.awaiting options switch)

/-- The options behind a single hyphen. The first one that takes a value takes all that follows. -/
def readShort (options : Options) : List Char → Except Refusal Progress
  | [] => .ok (.ready options)
  | c :: rest =>
    match Switch.ofShort? c with
    | none => .error (.unknown (String.ofList (c :: rest)))
    | some switch =>
      if switch.takesValue && !rest.isEmpty then
        let value := if rest.head? = some '=' then rest.drop 1 else rest
        (options.set switch (String.ofList value)).map .ready
      else
        match turnOn options switch with
        | .ok (.ready options) => readShort options rest
        | other => other

def readLong (options : Options) (body : List Char) : Except Refusal Progress :=
  let name := body.takeWhile (· != '=')
  match Switch.ofLong? (String.ofList name), body.dropWhile (· != '=') with
  | none, _ => .error (.unknown (String.ofList body))
  | some switch, [] => turnOn options switch
  | some switch, _ :: value =>
    if switch.takesValue then (options.set switch (String.ofList value)).map .ready
    else .error (.unexpectedValue switch)

def isOption (argument : String) : Bool := argument.toList.head? == some '-' && argument != "-"

def readArgument (options : Options) (argument : String) : Except Refusal Progress :=
  if isOption argument then
    match argument.toList with
    | _ :: '-' :: body => readLong options body
    | _ :: body => readShort options body
    | [] => .error (.unexpected argument)
  else .error (.unexpected argument)

/-- After two hyphens alone only positional arguments can follow, and there are none. -/
def readFrom : Progress → List String → Except Refusal Request
  | .done request, _ => .ok request
  | .ready options, [] => .ok (.run options)
  | .awaiting _ switch, [] => .error (.missingValue switch)
  | .awaiting options switch, value :: rest =>
    if isOption value then .error (.missingValue switch)
    else
      match options.set switch value with
      | .ok options => readFrom (.ready options) rest
      | .error refusal => .error refusal
  | .ready options, argument :: rest =>
    if argument = "--" then
      match rest with
      | [] => .ok (.run options)
      | extra :: _ => .error (.unexpected extra)
    else
      match readArgument options argument with
      | .ok progress => readFrom progress rest
      | .error refusal => .error refusal

def Request.ofArguments (arguments : List String) : Except Refusal Request :=
  readFrom (.ready {}) arguments

end FunctionIndex.Command
