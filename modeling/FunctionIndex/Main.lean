import FunctionIndex.Command.Run
import FunctionIndex.File.Snapshot
import FunctionIndex.Json.Parser

/-! # The command line

The working directory with the trees of its sources is read from standard input, as one line of
JSON: an object with the snapshot as `files` and, if it is to be set, the level of the log as `log`.
-/
namespace FunctionIndex
set_option autoImplicit false

structure Setting where
  snapshot : Snapshot
  level : Option Command.Level

def Setting.ofText? (text : String) : Option Setting := do
  let value ← Json.parse? text
  let snapshot ← Snapshot.ofJson? (← value.field? "files")
  match value.field? "log" with
  | none => return ⟨snapshot, none⟩
  | some name => return ⟨snapshot, some (← Command.Level.ofName? (← name.text?))⟩

end FunctionIndex

open FunctionIndex in
def main (arguments : List String) : IO UInt32 := do
  let line ← (← IO.getStdin).getLine
  match Setting.ofText? line with
  | none =>
    IO.eprintln "the snapshot on standard input is not valid"
    return 2
  | some setting =>
    let snapshot := setting.snapshot
    let outcome := Command.run snapshot.parser snapshot.directory setting.level arguments
    IO.print outcome.stdout
    outcome.stderr.forM IO.eprintln
    return outcome.exit.toUInt32
