import SymbolicAlgebra.Callable
import SymbolicAlgebra.Command
import SymbolicAlgebra.Constant
import SymbolicAlgebra.Derivative
import SymbolicAlgebra.Double.Instances
import SymbolicAlgebra.Equation
import SymbolicAlgebra.Evaluate
import SymbolicAlgebra.Expr.Walk
import SymbolicAlgebra.Fault
import SymbolicAlgebra.Main
import SymbolicAlgebra.Proofs.Congruence.Node
import SymbolicAlgebra.Proofs.Congruence.Number
import SymbolicAlgebra.Proofs.Congruence.Permuted
import SymbolicAlgebra.Proofs.Congruence.Product
import SymbolicAlgebra.Proofs.Congruence.Shape
import SymbolicAlgebra.Proofs.Congruence.Simplify
import SymbolicAlgebra.Proofs.Congruence.Sum
import SymbolicAlgebra.Proofs.Double.Congruence
import SymbolicAlgebra.Proofs.Double.Order
import SymbolicAlgebra.Proofs.Double.Parts
import SymbolicAlgebra.Proofs.Double.Text
import SymbolicAlgebra.Proofs.Equation.Runs
import SymbolicAlgebra.Proofs.Exact.Derivative
import SymbolicAlgebra.Proofs.Exact.List
import SymbolicAlgebra.Proofs.Exact.Node
import SymbolicAlgebra.Proofs.Exact.Product
import SymbolicAlgebra.Proofs.Exact.Simplify
import SymbolicAlgebra.Proofs.Exact.Sum
import SymbolicAlgebra.Proofs.Exact.Value
import SymbolicAlgebra.Proofs.Expr.Evaluate
import SymbolicAlgebra.Proofs.Expr.Occurs
import SymbolicAlgebra.Proofs.Expr.Walk
import SymbolicAlgebra.Proofs.Form.Canonical
import SymbolicAlgebra.Proofs.Form.Derivative
import SymbolicAlgebra.Proofs.Form.Differentiable
import SymbolicAlgebra.Proofs.Form.Lasting
import SymbolicAlgebra.Proofs.Form.Node
import SymbolicAlgebra.Proofs.Form.Product
import SymbolicAlgebra.Proofs.Form.Reading
import SymbolicAlgebra.Proofs.Form.Simplify
import SymbolicAlgebra.Proofs.Form.Sum
import SymbolicAlgebra.Proofs.Form.WellFormed
import SymbolicAlgebra.Proofs.Grammar.Alike
import SymbolicAlgebra.Proofs.Grammar.Checks
import SymbolicAlgebra.Proofs.Grammar.Complete
import SymbolicAlgebra.Proofs.Grammar.Derivation
import SymbolicAlgebra.Proofs.Grammar.Names
import SymbolicAlgebra.Proofs.Grammar.Parse
import SymbolicAlgebra.Proofs.Grammar.Sound
import SymbolicAlgebra.Proofs.Grammar.Steps
import SymbolicAlgebra.Proofs.Order.Laws
import SymbolicAlgebra.Proofs.Order.Sort
import SymbolicAlgebra.Proofs.Order.Total
import SymbolicAlgebra.Proofs.Plain.ReadBack
import SymbolicAlgebra.Proofs.Plain.Render
import SymbolicAlgebra.Proofs.Plain.RoundTrip
import SymbolicAlgebra.Proofs.Plain.Scan
import SymbolicAlgebra.Proofs.Plain.Spell
import SymbolicAlgebra.Reader.Parse
import SymbolicAlgebra.Render.Style
import SymbolicAlgebra.Session
import SymbolicAlgebra.Simplify.Solve
import SymbolicAlgebra.Proofs.Reading.List
import SymbolicAlgebra.Proofs.Reading.Sum
import SymbolicAlgebra.Proofs.Reading.Product
import SymbolicAlgebra.Proofs.Form.Constants
import SymbolicAlgebra.Proofs.Real.Function
import SymbolicAlgebra.Proofs.Real.Value
import SymbolicAlgebra.Proofs.Real.Power
import SymbolicAlgebra.Proofs.Real.Node
import SymbolicAlgebra.Proofs.Real.Simplify
import SymbolicAlgebra.Proofs.Collected.Depth
import SymbolicAlgebra.Proofs.Collected.Bulk
import SymbolicAlgebra.Proofs.Collected.Tame
import SymbolicAlgebra.Proofs.Collected.Sum
import SymbolicAlgebra.Proofs.Collected.Product
import SymbolicAlgebra.Proofs.Collected.Node
import SymbolicAlgebra.Proofs.Collected.Fixed
import SymbolicAlgebra.Proofs.Collected.Simple
import SymbolicAlgebra.Proofs.Collected.Expanded
import SymbolicAlgebra.Proofs.Collected.Factors
import SymbolicAlgebra.Proofs.Collected.Normal
import SymbolicAlgebra.Proofs.Text.Piece
import SymbolicAlgebra.Proofs.Token.Pattern
import SymbolicAlgebra.Proofs.Token.Munch
import SymbolicAlgebra.Proofs.Reader.Ends
import SymbolicAlgebra.Proofs.Reader.Faults
import SymbolicAlgebra.Proofs.Reader.Operation
import SymbolicAlgebra.Proofs.Reader.Lossless
import SymbolicAlgebra.Proofs.Command.Faults
import SymbolicAlgebra.Proofs.Double.Units
import SymbolicAlgebra.Proofs.Folding.Laws
import SymbolicAlgebra.Proofs.Folding.Total
import SymbolicAlgebra.Proofs.Folding.Node
import SymbolicAlgebra.Proofs.Folding.Simplify
import SymbolicAlgebra.Proofs.Double.Doubling
import SymbolicAlgebra.Proofs.Doubled.Product
import SymbolicAlgebra.Proofs.Doubled.Simplify
import SymbolicAlgebra.Proofs.Reader.Mirror
import SymbolicAlgebra.Proofs.Reader.Progress
import SymbolicAlgebra.Proofs.Reader.Layout
import SymbolicAlgebra.Proofs.Reader.Partners
import SymbolicAlgebra.Proofs.Reader.Causes
import SymbolicAlgebra.Proofs.Reader.FirstFault
import SymbolicAlgebra.Proofs.Reader.Glued
import SymbolicAlgebra.Proofs.Expr.Unbound
import SymbolicAlgebra.Proofs.Form.Numbers
import SymbolicAlgebra.Proofs.Order.Extremum
import SymbolicAlgebra.Proofs.Folding.Extremum
import SymbolicAlgebra.Proofs.Expr.Positions
import SymbolicAlgebra.Proofs.Collected.Classes
import SymbolicAlgebra.Proofs.Render.Signs
import SymbolicAlgebra.Proofs.Double.Literal
import SymbolicAlgebra.Proofs.Text.Words
import SymbolicAlgebra.Proofs.Command.ReadBack
