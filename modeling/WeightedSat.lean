import WeightedSat.Word
import WeightedSat.Text.Ranges
import WeightedSat.Text.Blank
import WeightedSat.Text.Lines
import WeightedSat.Text.Numeral
import WeightedSat.Text.Printable
import WeightedSat.Text.Quoted
import WeightedSat.Decimal.Basic
import WeightedSat.Decimal.Layout
import WeightedSat.Decimal.Reader
import WeightedSat.Text.Position
import WeightedSat.Fault
import WeightedSat.File.Fault
import WeightedSat.Dimacs.Defect
import WeightedSat.Document.Defect
import WeightedSat.Error
import WeightedSat.Counter
import WeightedSat.Literal
import WeightedSat.Clause
import WeightedSat.Formula
import WeightedSat.Dimacs.Token
import WeightedSat.Dimacs.Reader
import WeightedSat.Dimacs.Writer
import WeightedSat.Weight
import WeightedSat.Occurrence
import WeightedSat.Bounds
import WeightedSat.Encoding
import WeightedSat.State
import WeightedSat.Model
import WeightedSat.Random.Words
import WeightedSat.Random.ChaCha
import WeightedSat.Walk
import WeightedSat.Document.Configuration
import WeightedSat.Document.Writer
import WeightedSat.Document.Cursor
import WeightedSat.Document.Scalar
import WeightedSat.Document.Skip
import WeightedSat.Document.Reader
import WeightedSat.File.Folder
import WeightedSat.Loading
import WeightedSat.CommandLine.Arguments
import WeightedSat.CommandLine.Run
import WeightedSat.Main
import WeightedSat.Proofs.TrueLiterals
import WeightedSat.Proofs.Encoding
import WeightedSat.Proofs.Configured
import WeightedSat.Proofs.Counting
import WeightedSat.Proofs.Runs
import WeightedSat.Proofs.History
import WeightedSat.Proofs.Tautologies
import WeightedSat.Proofs.Price
import WeightedSat.Proofs.Binary64.Word
import WeightedSat.Proofs.Binary64.Value
import WeightedSat.Proofs.Binary64.Exact
import WeightedSat.Proofs.Binary64.Nearest
import WeightedSat.Proofs.Differences
import WeightedSat.Proofs.Tracking
import WeightedSat.Proofs.Text.Numerals
import WeightedSat.Proofs.Decimal.ReadBack
import WeightedSat.Proofs.Results
import WeightedSat.Proofs.Loading
import WeightedSat.Proofs.Widths
import WeightedSat.Proofs.Dimacs.Words
import WeightedSat.Proofs.Dimacs.Grammar
import WeightedSat.Proofs.Dimacs.Steps
import WeightedSat.Proofs.Dimacs.Acceptance
import WeightedSat.Proofs.Dimacs.WriteRead
import WeightedSat.Proofs.Terms
import WeightedSat.Proofs.Dimacs.Terms
import WeightedSat.Proofs.Document.Scalars
import WeightedSat.Proofs.Document.Numbers
import WeightedSat.Proofs.Document.Records
import WeightedSat.Proofs.Document.Written
import WeightedSat.Proofs.Document.Terms
import WeightedSat.Proofs.Document.Reread
import WeightedSat.Proofs.Document.ReadBack
import WeightedSat.Proofs.Document.WholeWeights
import WeightedSat.Proofs.Formats
import WeightedSat.Proofs.Dimacs.NormalForm
import WeightedSat.Proofs.Reconfiguration
import WeightedSat.Proofs.Dimacs.Weights
import WeightedSat.Proofs.Conversion
import WeightedSat.Proofs.Binary64.Rounding
import WeightedSat.Proofs.Binary64.Order
import WeightedSat.Proofs.StatusChanges
import WeightedSat.Proofs.Binary64.Sums
import WeightedSat.Proofs.FlipPrices
import WeightedSat.Proofs.Occurrences
import WeightedSat.Proofs.Names
import WeightedSat.Proofs.CancelledGroups
import WeightedSat.Proofs.Contents
import WeightedSat.Proofs.Binary64.Unsigned
import WeightedSat.Proofs.Schedules
import WeightedSat.Proofs.Presentations
import WeightedSat.Proofs.TameFlips
import WeightedSat.Proofs.Failures
import WeightedSat.Proofs.Descriptions
import WeightedSat.Proofs.Document.RoundTrip
import WeightedSat.Proofs.Dimacs.Layout
import WeightedSat.Proofs.Text.Offsets
import WeightedSat.Proofs.Dimacs.Spans
import WeightedSat.Proofs.Dimacs.Places
import WeightedSat.Proofs.Draws
import WeightedSat.Proofs.Drivers
