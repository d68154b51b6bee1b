import FunctionIndex.Command.Arguments
import FunctionIndex.Command.Log
import FunctionIndex.Command.Run
import FunctionIndex.Definition.Extract
import FunctionIndex.Definition.Kind
import FunctionIndex.Definition.Name
import FunctionIndex.Definition.Property
import FunctionIndex.Definition.Qualifier
import FunctionIndex.Definition.Record
import FunctionIndex.Definition.Scope
import FunctionIndex.Definition.Span
import FunctionIndex.Extraction.Basic
import FunctionIndex.Extraction.Error
import FunctionIndex.File.Directory
import FunctionIndex.File.Path
import FunctionIndex.File.Snapshot
import FunctionIndex.Glob.Expand
import FunctionIndex.Glob.Pattern
import FunctionIndex.Json.Basic
import FunctionIndex.Json.Parser
import FunctionIndex.Json.Printer
import FunctionIndex.Json.Quoted
import FunctionIndex.Language
import FunctionIndex.Main
import FunctionIndex.Report.Basic
import FunctionIndex.Report.Entry
import FunctionIndex.Report.Sink
import FunctionIndex.Text.Blank
import FunctionIndex.Text.Decimal
import FunctionIndex.Text.Spacing
import FunctionIndex.Text.Utf8
import FunctionIndex.Tree.Basic
import FunctionIndex.Tree.Cursor
import FunctionIndex.Tree.Encoding
import FunctionIndex.Tree.Listing
import FunctionIndex.Tree.Search
import FunctionIndex.Proofs.Tree.Ancestors
import FunctionIndex.Proofs.Definition.Basic
import FunctionIndex.Proofs.Definition.Properties
import FunctionIndex.Proofs.Definition.Outline
import FunctionIndex.Proofs.Definition.Span
import FunctionIndex.Proofs.Definition.Laminar
import FunctionIndex.Proofs.Json.Layout
import FunctionIndex.Proofs.Json.Blanks
import FunctionIndex.Proofs.Json.RoundTrip
import FunctionIndex.Proofs.Report.Entry
import FunctionIndex.Proofs.Text.Utf8
import FunctionIndex.Proofs.Report.Lines
import FunctionIndex.Proofs.Report.Array
import FunctionIndex.Proofs.File.Distinct
import FunctionIndex.Proofs.File.Resolve
import FunctionIndex.Proofs.Command.Missing
import FunctionIndex.Proofs.Command.Batch
import FunctionIndex.Proofs.Command.Log
import FunctionIndex.Proofs.Command.Outcomes
import FunctionIndex.Proofs.Definition.Reading
import FunctionIndex.Proofs.Tree.Walk
import FunctionIndex.Proofs.Definition.Spacing
import FunctionIndex.Proofs.Report.Forms
import FunctionIndex.Proofs.Definition.Stripping
import FunctionIndex.Proofs.Text.Range
import FunctionIndex.Proofs.Report.Truncated
import FunctionIndex.Proofs.Tree.Climb
import FunctionIndex.Proofs.File.Spelling
import FunctionIndex.Proofs.Command.Gathered
import FunctionIndex.Proofs.Extraction.Selection
import FunctionIndex.Proofs.Definition.Anonymous
import FunctionIndex.Proofs.File.Extension
import FunctionIndex.Proofs.Definition.Removal
