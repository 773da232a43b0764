import TopDown.Benchmark
import TopDown.BuiltIn
import TopDown.CommandLine.Arguments
import TopDown.CommandLine.Lines
import TopDown.CommandLine.Numeral
import TopDown.CommandLine.Outcome
import TopDown.CommandLine.Walk
import TopDown.Configuration.Basic
import TopDown.Configuration.Load
import TopDown.Decimal.Shortest
import TopDown.Display.Grammar
import TopDown.Display.Summary
import TopDown.Display.Trace
import TopDown.Document.Basic
import TopDown.Document.Read
import TopDown.Error
import TopDown.Generator.Derive
import TopDown.Generator.Policy
import TopDown.Grammar
import TopDown.Grid
import TopDown.Json.Cursor
import TopDown.Json.Fault
import TopDown.Json.Numeral
import TopDown.Json.Quote
import TopDown.Json.Read
import TopDown.Json.Value
import TopDown.Json.Write
import TopDown.Keyed
import TopDown.Main
import TopDown.Parser.Run
import TopDown.Parser.State
import TopDown.Parser.Step
import TopDown.Proofs.BuiltIn.Language
import TopDown.Proofs.BuiltIn.Loaded
import TopDown.Proofs.Completeness
import TopDown.Proofs.Derivation
import TopDown.Proofs.Generated
import TopDown.Proofs.Loading
import TopDown.Proofs.Lookahead
import TopDown.Proofs.Potential
import TopDown.Proofs.RoundTrip
import TopDown.Proofs.SententialForm
import TopDown.Proofs.Soundness
import TopDown.Proofs.StepLimit
import TopDown.Proofs.Steps
import TopDown.Random.Seeded
import TopDown.Random.Source
import TopDown.Rows
import TopDown.Sets
import TopDown.Spelling
import TopDown.Symbol
import TopDown.Table
import TopDown.Text.Blank
import TopDown.Text.Quoted
import TopDown.Text.Unprintable
import TopDown.Proofs.FirstFollow
import TopDown.Proofs.BuiltIn.Lists
import TopDown.Proofs.Scripts
import TopDown.Proofs.Worklist
import TopDown.Proofs.Named
import TopDown.Proofs.Divergence
import TopDown.Proofs.Legible
import TopDown.Proofs.Rejection
import TopDown.Proofs.Reloading
import TopDown.Proofs.Spellings
import TopDown.Proofs.Stepping
import TopDown.Proofs.Words
import TopDown.Proofs.DocumentText
import TopDown.Proofs.Writing
import TopDown.Proofs.BuiltIn.WindingDown
import TopDown.Proofs.InputLines
import TopDown.Proofs.Walking
import TopDown.Proofs.Checks
import TopDown.Proofs.Described
import TopDown.Proofs.Loadable
import TopDown.Proofs.Entries
import TopDown.Proofs.Renaming
import TopDown.Proofs.Reordering
import TopDown.Proofs.Certificates
import TopDown.Proofs.EndSpelling
import TopDown.Proofs.Trimming
import TopDown.Proofs.Prefixes
import TopDown.Proofs.Limits
import TopDown.Proofs.WrittenForms
import TopDown.Proofs.Highlighting
import TopDown.Proofs.Building
import TopDown.Proofs.Columns
