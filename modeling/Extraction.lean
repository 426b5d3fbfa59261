import Extraction.CommandLine.Arguments
import Extraction.CommandLine.Host
import Extraction.CommandLine.Program
import Extraction.CommandLine.Report
import Extraction.Cost
import Extraction.Decimal.Binary
import Extraction.Decimal.Layout
import Extraction.Decimal.Numeral
import Extraction.Decimal.Shortest
import Extraction.Decision
import Extraction.Extract
import Extraction.Graph.Document
import Extraction.Graph.Draft
import Extraction.Graph.Error
import Extraction.Graph.Node
import Extraction.Graph.OpTable
import Extraction.Graph.Printer
import Extraction.Graph.Redundancy
import Extraction.Graph.Sealed
import Extraction.Id
import Extraction.Id.Reader
import Extraction.Incumbent
import Extraction.Json.Number
import Extraction.Json.Printer
import Extraction.Json.Reader
import Extraction.Json.Value
import Extraction.Main
import Extraction.OrderedMap
import Extraction.Relaxation.Bill
import Extraction.Relaxation.Measure
import Extraction.Relaxation.Run
import Extraction.Relaxation.Table
import Extraction.Selection.Basic
import Extraction.Selection.Measures
import Extraction.Selection.Walk
import Extraction.Settings
import Extraction.Settings.File
import Extraction.Text.Blank
import Extraction.Text.Hex
import Extraction.Text.Invisible
import Extraction.Text.Quoted
import Extraction.Text.Utf8
import Extraction.Toml.Reader
import Extraction.Toml.Scalar
import Extraction.Toml.Value
import Extraction.Worklist
import Extraction.Proofs.Cost.Laws
import Extraction.Proofs.Relaxation.Round
import Extraction.Proofs.Relaxation.Invariants
import Extraction.Proofs.Relaxation.Measure
import Extraction.Proofs.Cost.Least
import Extraction.Proofs.Relaxation.Levels
import Extraction.Proofs.Relaxation.Phases
import Extraction.Proofs.Relaxation.Potential
import Extraction.Proofs.Relaxation.Bill
import Extraction.Proofs.Relaxation.Totals
import Extraction.Proofs.Relaxation.Itemized
import Extraction.Proofs.Extract.Outcome
import Extraction.Proofs.Extract.Coverage
import Extraction.Proofs.Selection.Check
import Extraction.Proofs.Relaxation.Rank
import Extraction.Proofs.Extract.Acyclic
import Extraction.Proofs.Selection.Tabulate
import Extraction.Proofs.Relaxation.Attained
import Extraction.Proofs.Extract.TreeCost
import Extraction.Proofs.Double.Rounding
import Extraction.Proofs.Double.Fields
import Extraction.Proofs.Double.Sum
import Extraction.Proofs.Cost.Rational
import Extraction.Proofs.Extract.StaleBills
import Extraction.Proofs.Selection.Survey
import Extraction.Proofs.Selection.Validity
import Extraction.Proofs.Extract.Ending
import Extraction.Proofs.Extract.Passes
import Extraction.Proofs.Relaxation.Timed
import Extraction.Proofs.Extract.UnitRounds
import Extraction.Proofs.Graph.Redundancy
import Extraction.Proofs.Selection.Mirror
import Extraction.Proofs.Selection.Least
import Extraction.Proofs.Selection.Redundancy
import Extraction.Proofs.Extract.Itemized
import Extraction.Proofs.Relaxation.Shortcut
import Extraction.Proofs.Extract.Shortcut
import Extraction.Proofs.Relaxation.Recorded
import Extraction.Proofs.Relaxation.Realization
import Extraction.Proofs.Relaxation.Current
import Extraction.Proofs.Extract.RecordedTotals
import Extraction.Proofs.Double.Product
import Extraction.Proofs.Double.Nearest
import Extraction.Proofs.Selection.Hints
import Extraction.Proofs.Selection.Tally
import Extraction.Proofs.Relaxation.Descent
import Extraction.Proofs.Extract.Records
import Extraction.Proofs.Relaxation.Overlooked
import Extraction.Proofs.Extract.Hints
import Extraction.Proofs.Graph.Part
import Extraction.Proofs.Relaxation.Projection
import Extraction.Proofs.Extract.Locality
import Extraction.Proofs.Selection.Unrivalled
import Extraction.Proofs.Relaxation.Unrivalled
import Extraction.Proofs.Extract.Order
import Extraction.Proofs.Extract.Depth
import Extraction.Proofs.Extract.Redundancy
import Extraction.Proofs.Cost.Counting
import Extraction.Proofs.Double.Counting
import Extraction.Proofs.Relaxation.Fixpoint
import Extraction.Proofs.Graph.Edit
import Extraction.Proofs.Decimal.Digits
import Extraction.Proofs.Json.Lexemes
import Extraction.Proofs.Json.RoundTrip
import Extraction.Proofs.Graph.Grouping
import Extraction.Proofs.Graph.Document
import Extraction.Proofs.Graph.Growth
import Extraction.Proofs.Graph.Loading
import Extraction.Proofs.Graph.RoundTrip
import Extraction.Proofs.Graph.Repeats
import Extraction.Proofs.Text.Lines
import Extraction.Proofs.Decision.Conflicts
import Extraction.Proofs.Decision.Grammar
import Extraction.Proofs.Decision.RoundTrip
import Extraction.Proofs.Decision.WarmStart
import Extraction.Proofs.Double.Order
import Extraction.Proofs.Incumbent.Order
import Extraction.Proofs.Decimal.Scanning
import Extraction.Proofs.Incumbent.Log
import Extraction.Proofs.Cost.Multiples
import Extraction.Proofs.Selection.Cycles
import Extraction.Proofs.Selection.Enumeration
import Extraction.Proofs.Selection.Unfolding
import Extraction.Proofs.Selection.Paths
import Extraction.Proofs.Relaxation.BillTotals
import Extraction.Proofs.Extract.UniformCosts
import Extraction.Proofs.Extract.SingleInstalls
import Extraction.Proofs.Relaxation.Evaluation
import Extraction.Proofs.Relaxation.DrawnUp
import Extraction.Proofs.Extract.Evaluation
import Extraction.Proofs.Graph.KeepFirst
import Extraction.Proofs.Graph.Sealing
import Extraction.Proofs.Graph.Refusal
import Extraction.Proofs.Graph.Respelling
import Extraction.Proofs.Extract.Budget
import Extraction.Proofs.Worklist
import Extraction.Proofs.Sorted
import Extraction.Proofs.Graph.Signature
import Extraction.Proofs.Id.Grammar
