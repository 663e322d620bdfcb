import Reckoner.Command.Arguments
import Reckoner.Command.Basic
import Reckoner.Command.Run
import Reckoner.CompoundUnit.Basic
import Reckoner.CompoundUnit.Label
import Reckoner.Decimal.Basic
import Reckoner.Decimal.Layout
import Reckoner.Decimal.Literal
import Reckoner.Decimal.Nearest
import Reckoner.Decimal.Rounded
import Reckoner.Decimal.Shortest
import Reckoner.Diagnostic
import Reckoner.Document.Format
import Reckoner.Executor.Basic
import Reckoner.Executor.Deferred
import Reckoner.Executor.Threaded
import Reckoner.Formula.Basic
import Reckoner.Formula.Bindings
import Reckoner.Formula.Evaluate
import Reckoner.Formula.Expr
import Reckoner.Formula.Lexeme
import Reckoner.Formula.Parser
import Reckoner.Formula.Power
import Reckoner.Formula.Token
import Reckoner.Json.Basic
import Reckoner.Json.Decode
import Reckoner.Json.Draft
import Reckoner.Log
import Reckoner.Main
import Reckoner.Proofs.Command.Frame
import Reckoner.Proofs.Command.SavedList
import Reckoner.Proofs.CompoundUnit.Built
import Reckoner.Proofs.CompoundUnit.Exponents
import Reckoner.Proofs.CompoundUnit.Legible
import Reckoner.Proofs.Decimal.Digits
import Reckoner.Proofs.Decimal.Doubles
import Reckoner.Proofs.Decimal.Literals
import Reckoner.Proofs.Decimal.Nearest
import Reckoner.Proofs.Decimal.Shortest
import Reckoner.Proofs.Executor.Deferred
import Reckoner.Proofs.Executor.Latest
import Reckoner.Proofs.Executor.Line
import Reckoner.Proofs.Formula.Bindings
import Reckoner.Proofs.Formula.Dimension
import Reckoner.Proofs.Formula.Expectation
import Reckoner.Proofs.Formula.Grammar
import Reckoner.Proofs.Formula.Influence
import Reckoner.Proofs.Formula.Parser
import Reckoner.Proofs.Formula.Patterns
import Reckoner.Proofs.Formula.Readers
import Reckoner.Proofs.Formula.Remarks
import Reckoner.Proofs.Formula.Scan
import Reckoner.Proofs.Json.Compact
import Reckoner.Proofs.Json.Decode
import Reckoner.Proofs.Json.Floats
import Reckoner.Proofs.Json.Numbers
import Reckoner.Proofs.Json.Strings
import Reckoner.Proofs.RunUnit
import Reckoner.Proofs.Session.Document
import Reckoner.Proofs.Session.Validity
import Reckoner.Proofs.Shell.Events
import Reckoner.Proofs.Shell.Freshness
import Reckoner.Proofs.Simulation
import Reckoner.Proofs.Simulation.Accounting
import Reckoner.Proofs.Statistics.Counts
import Reckoner.Proofs.Storage
import Reckoner.Proofs.Store.Documents
import Reckoner.Proofs.Store.Refinement
import Reckoner.Proofs.Store.Shelf
import Reckoner.Proofs.Sweep
import Reckoner.Proofs.Timestamp.Calendar
import Reckoner.Proofs.Timestamp.Text
import Reckoner.Report.Json
import Reckoner.Report.Text
import Reckoner.Session.Basic
import Reckoner.Session.Document
import Reckoner.Session.Saved
import Reckoner.Session.Validity
import Reckoner.Shell
import Reckoner.Simulation.Basic
import Reckoner.Simulation.Generator
import Reckoner.Simulation.Layers
import Reckoner.Simulation.Sampler
import Reckoner.Statistics.Histogram
import Reckoner.Statistics.Quantile
import Reckoner.Statistics.Scalar
import Reckoner.Statistics.Summary
import Reckoner.Storage.Basic
import Reckoner.Storage.Directory
import Reckoner.Storage.Memory
import Reckoner.Store
import Reckoner.Sweep
import Reckoner.Text.Base64
import Reckoner.Text.Blank
import Reckoner.Text.Letter
import Reckoner.Text.Numeral
import Reckoner.Text.Surrogate
import Reckoner.Text.Words
import Reckoner.Timestamp.Basic
import Reckoner.Timestamp.Text
import Reckoner.Yaml.Cursor
import Reckoner.Yaml.Node
import Reckoner.Yaml.Nodes
import Reckoner.Yaml.Number
import Reckoner.Yaml.Property
import Reckoner.Yaml.Read
import Reckoner.Yaml.Scalar
import Reckoner.Yaml.Style
import Reckoner.Yaml.Token
import Reckoner.Yaml.Tokens
import Reckoner.Yaml.Write
import Reckoner.Proofs.Session.Rules
import Reckoner.Proofs.CompoundUnit.Range
import Reckoner.Proofs.Session.Yaml
import Reckoner.Proofs.Storage.Directory
import Reckoner.Proofs.CompoundUnit.Algebra
import Reckoner.Proofs.CompoundUnit.Joined
import Reckoner.Proofs.Formula.UnitErrors
import Reckoner.Proofs.Formula.LabelOrder
import Reckoner.Proofs.CompoundUnit.ExponentText
import Reckoner.Proofs.Formula.Assignment
import Reckoner.Proofs.Formula.Mentions
import Reckoner.Proofs.Formula.SyntaxErrors
import Reckoner.Proofs.Formula.NonFinite
import Reckoner.Proofs.Double.Packing
import Reckoner.Proofs.Double.Finite
import Reckoner.Proofs.Double.HalfEven
import Reckoner.Proofs.Double.Rounding
import Reckoner.Proofs.Double.Arithmetic
import Reckoner.Proofs.Sweep.Range
import Reckoner.Proofs.Statistics.Exact
import Reckoner.Proofs.Statistics.Partition
import Reckoner.Proofs.Statistics.Quantiles
import Reckoner.Proofs.Statistics.Order
import Reckoner.Proofs.Double.Limits
import Reckoner.Proofs.Double.Whole
import Reckoner.Proofs.Double.Interpolation
import Reckoner.Proofs.Double.Root
import Reckoner.Proofs.Double.Steps
import Reckoner.Proofs.Statistics.Edges
import Reckoner.Proofs.Simulation.Finite
import Reckoner.Proofs.Storage.Quota
import Reckoner.Proofs.Store.Failures
import Reckoner.Proofs.Json.Decoded
import Reckoner.Proofs.Log
import Reckoner.Proofs.Session.Instants
import Reckoner.Proofs.Store.Bound
