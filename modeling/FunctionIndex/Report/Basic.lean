import FunctionIndex.Json.Printer
import FunctionIndex.Report.Entry
import FunctionIndex.Report.Sink

/-! # Reports

A report lists the entries of some files in order. In the line format every entry is one line of
compact JSON; in the array format the whole report is one indented JSON list.
-/
namespace FunctionIndex
set_option autoImplicit false

inductive Report.Format where
  | lines
  | array
  deriving DecidableEq, Repr, Inhabited

namespace Report

def Format.name : Format → String
  | .lines => "jsonl"
  | .array => "json"

def Format.ofName? (name : String) : Option Format :=
  [Format.lines, Format.array].find? (·.name == name)

def entries (withFile : Bool) (files : List FileRecords) : List Json :=
  files.flatMap fun content =>
    content.records.map (if withFile then Record.toLocatedJson content.file else Record.toJson)

def chunks (format : Format) (withFile : Bool) (files : List FileRecords) : List String :=
  match format with
  | .lines => (entries withFile files).flatMap fun entry => [entry.compact, "\n"]
  | .array => [(Json.list (entries withFile files)).indented, "\n"]

def text (format : Format) (withFile : Bool) (files : List FileRecords) : String :=
  String.join (chunks format withFile files)

def write (format : Format) (withFile : Bool) (files : List FileRecords) (sink : Sink) :
    Bool × Sink :=
  sink.writeAll ((chunks format withFile files).map fun chunk => chunk.toUTF8.data.toList)

end Report
end FunctionIndex
