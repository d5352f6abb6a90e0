import Layering.Text.Basic
import Layering.Text.Blank
import Layering.Text.Digit
import Layering.Text.Lowercase
import Layering.Text.Quoted
import Layering.Text.Surrogate
import Layering.Text.Word
import Layering.Decimal.Fixed
import Layering.Decimal.Shortest
import Layering.Json.Printer
import Layering.Json.Reader
import Layering.Value.Shown
import Layering.Value.StampText
import Layering.Glob.Basic
import Layering.Path.Basic
import Layering.Path.Fault
import Layering.Glob.Cache
import Layering.Graph.Cycle
import Layering.Report.Format
import Layering.Report.JUnit
import Layering.Report.Record
import Layering.Rule.Checker
import Layering.Rule.Engine
import Layering.Rule.RuleSet
import Layering.Yaml.Document
import Layering.Text.Number
import Layering.Config.Default
import Layering.Config.File
import Layering.Diagram.Basic
import Layering.Diagram.Link
import Layering.Source.Analysis
import Layering.Cli.Run
import Layering.Main
import Layering.Proofs.Graph.Arrow
import Layering.Proofs.Graph.Key
import Layering.Proofs.Graph.Search
import Layering.Proofs.Graph.Termination
import Layering.Proofs.Graph.Survey
import Layering.Proofs.Graph.Soundness
import Layering.Proofs.Graph.Coverage
import Layering.Proofs.Graph.BackArrow
import Layering.Proofs.List.Repetition
import Layering.Proofs.Graph.Dependents
import Layering.Proofs.Decimal.Numeral
import Layering.Proofs.Text.Surrogate
import Layering.Proofs.Text.Delimited
import Layering.Proofs.Json.Delimited
import Layering.Proofs.Json.Object
import Layering.Proofs.Value.Quoted
import Layering.Proofs.Glob.Transparency
import Layering.Proofs.Rule.Isolation
import Layering.Proofs.Files.Names
import Layering.Proofs.Source.Components
import Layering.Proofs.Source.Lossless
import Layering.Proofs.Rule.Matching
import Layering.Proofs.Rule.PathImport
import Layering.Proofs.Rule.DottedImport
import Layering.Proofs.Config.Schema
import Layering.Proofs.Config.Setup
import Layering.Proofs.Report.Accounting
import Layering.Proofs.Report.Markup
import Layering.Proofs.Report.JUnit
import Layering.Proofs.Report.Console
import Layering.Proofs.Report.Agreement
import Layering.Proofs.Config.Inheritance
import Layering.Proofs.Report.Element
import Layering.Proofs.Report.Suites
import Layering.Proofs.Glob.Derivation
import Layering.Proofs.Glob.Containment
import Layering.Proofs.Glob.Subtree
import Layering.Proofs.Rule.Preview
import Layering.Proofs.Rule.Verdict
import Layering.Proofs.Config.Merge
import Layering.Proofs.Source.Resolution
import Layering.Proofs.Source.Extraction
import Layering.Proofs.Files.Search
import Layering.Proofs.Source.Discovery
import Layering.Proofs.Graph.Identity
import Layering.Proofs.Yaml.Alias
import Layering.Proofs.Diagram.Identifier
import Layering.Proofs.Diagram.Link
import Layering.Proofs.Source.Record
import Layering.Proofs.Graph.Moment
import Layering.Proofs.Graph.Progress
import Layering.Proofs.Diagram.Architecture
import Layering.Proofs.Diagram.Kinds
import Layering.Proofs.Glob.Invariant
