import Tacit.Arity
import Tacit.Call
import Tacit.Call.Iteration
import Tacit.Call.Operands
import Tacit.Call.Primitive
import Tacit.CommandLine
import Tacit.Env
import Tacit.Eval
import Tacit.Fault
import Tacit.Glyph
import Tacit.Grid
import Tacit.Located
import Tacit.Main
import Tacit.Modifier
import Tacit.Node
import Tacit.Node.Grammar
import Tacit.Node.ParseError
import Tacit.Node.Rule
import Tacit.Number.Decimal
import Tacit.Number.Double
import Tacit.Number.Integer
import Tacit.Number.Shortest
import Tacit.Primitive
import Tacit.Proofs.Contents
import Tacit.Proofs.Result
import Tacit.Scalar.Arithmetic
import Tacit.Scalar.Comparison
import Tacit.Scalar.Pervasion
import Tacit.Session
import Tacit.Shape
import Tacit.Text.Quoted
import Tacit.Token
import Tacit.Token.Scan
import Tacit.Train
import Tacit.Value
import Tacit.Value.Cells
import Tacit.Value.Display
import Tacit.Value.Equality
import Tacit.Value.Indexing
import Tacit.Value.Joining
import Tacit.Value.Shaping
import Tacit.Proofs.Primitives
import Tacit.Proofs.Calls
import Tacit.Proofs.Steps
import Tacit.Proofs.Bindings
import Tacit.Proofs.Evaluation
import Tacit.Proofs.Sizes
import Tacit.Proofs.Sessions
import Tacit.Proofs.Reading
import Tacit.Proofs.Legibility
import Tacit.Proofs.Faults
import Tacit.Proofs.Arities
import Tacit.Proofs.Derivations
import Tacit.Proofs.Acceptance
import Tacit.Proofs.LineBreaks
import Tacit.Proofs.Lexemes
import Tacit.Proofs.Respelling
import Tacit.Proofs.Statements
import Tacit.Proofs.Readings
import Tacit.Proofs.Concatenation
import Tacit.Proofs.Heights
import Tacit.Proofs.Numerals
import Tacit.Proofs.Literals
import Tacit.Proofs.RoundTrip
import Tacit.Proofs.Locality
import Tacit.Proofs.Trains
import Tacit.Proofs.Forcing
import Tacit.Proofs.Texts
import Tacit.Proofs.Rereading
import Tacit.Proofs.Juxtaposition
import Tacit.Proofs.Prefixes
import Tacit.Proofs.Lines
import Tacit.Proofs.Leaves
import Tacit.Proofs.Absorption
import Tacit.Proofs.Cells
import Tacit.Proofs.Catenation
import Tacit.Proofs.Selection
import Tacit.Proofs.Reselection
import Tacit.Proofs.Integers
import Tacit.Proofs.Positions
import Tacit.Proofs.Reshaping
import Tacit.Proofs.Matching
import Tacit.Proofs.Appearance
import Tacit.Proofs.Comparisons
import Tacit.Proofs.Composition
import Tacit.Proofs.Glyphs
import Tacit.Proofs.Unclosed
import Tacit.Proofs.Decomposition
import Tacit.Proofs.Machine
import Tacit.Proofs.Extents
import Tacit.Proofs.Recursion
