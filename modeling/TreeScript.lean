import TreeScript.Text.Blank
import TreeScript.Text.Quoted
import TreeScript.Text.Visible
import TreeScript.Text.Shown
import TreeScript.Token.Basic
import TreeScript.ReadError
import TreeScript.Token.Scan
import TreeScript.Tree.Basic
import TreeScript.Tree.Print
import TreeScript.Tree.Read
import TreeScript.Tree.Operator
import TreeScript.Tree.Form
import TreeScript.Tree.Shape
import TreeScript.Number.Decimal
import TreeScript.Number.Dyadic
import TreeScript.Number.Shortest
import TreeScript.Number.FloatText
import TreeScript.Number.Basic
import TreeScript.Number.Literal
import TreeScript.Number.Size
import TreeScript.Fault
import TreeScript.Number.Arithmetic
import TreeScript.Value.Basic
import TreeScript.Value.Heap
import TreeScript.Value.Compare
import TreeScript.Value.Sequence
import TreeScript.Value.Grid
import TreeScript.Value.Operation
import TreeScript.Machine.Store
import TreeScript.Machine.Stream
import TreeScript.Machine.Basic
import TreeScript.Eval.InputLine
import TreeScript.Eval.Basic
import TreeScript.Eval.Expression
import TreeScript.Eval.Statement
import TreeScript.Eval.Tree
import TreeScript.Session
import TreeScript.CommandLine
import TreeScript.Main
import TreeScript.Proofs.Fold
import TreeScript.Proofs.Flat
import TreeScript.Proofs.Reading
import TreeScript.Proofs.Grammar
import TreeScript.Proofs.Verdict
import TreeScript.Proofs.Scanning
import TreeScript.Proofs.RoundTrip
import TreeScript.Proofs.Layout
import TreeScript.Proofs.Patterns
import TreeScript.Proofs.Arrays
import TreeScript.Proofs.Origin
import TreeScript.Proofs.Outcome
import TreeScript.Proofs.Places
import TreeScript.Proofs.Alike
import TreeScript.Proofs.Levels
import TreeScript.Proofs.Invariant
import TreeScript.Proofs.Upheld
import TreeScript.Proofs.History
import TreeScript.Proofs.ArrayNesting
import TreeScript.Proofs.Marks
import TreeScript.Proofs.Discipline
import TreeScript.Proofs.Limit
import TreeScript.Proofs.Frame
import TreeScript.Proofs.WellFormed
import TreeScript.Proofs.Calls
import TreeScript.Proofs.Agreement
import TreeScript.Proofs.Visits
import TreeScript.Proofs.Yielded
import TreeScript.Proofs.Leaving
import TreeScript.Proofs.Allowance
import TreeScript.Proofs.Wrappers
import TreeScript.Proofs.Arity
import TreeScript.Proofs.FloatOrder
import TreeScript.Proofs.Conversion
import TreeScript.Proofs.Comparison
import TreeScript.Proofs.Transitivity
import TreeScript.Proofs.Sharing
import TreeScript.Proofs.Variables
import TreeScript.Proofs.Consumption
import TreeScript.Proofs.LineBreaks
import TreeScript.Proofs.LineLocal
import TreeScript.Proofs.Splitting
import TreeScript.Proofs.Flattening
import TreeScript.Proofs.Detached
import TreeScript.Proofs.Paths
import TreeScript.Proofs.Coordinates
import TreeScript.Proofs.Blocks
import TreeScript.Proofs.Elements
import TreeScript.Proofs.Sizes
import TreeScript.Proofs.Lines
import TreeScript.Proofs.Transcript
import TreeScript.Proofs.Joining
import TreeScript.Proofs.Indexing
import TreeScript.Proofs.Integers
import TreeScript.Proofs.Consistency
import TreeScript.Proofs.Exactness
import TreeScript.Proofs.Separators
import TreeScript.Proofs.Tags
import TreeScript.Proofs.FloatBits
import TreeScript.Proofs.ExactDecimal
import TreeScript.Proofs.Numerals
