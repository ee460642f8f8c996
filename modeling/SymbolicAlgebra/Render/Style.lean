import SymbolicAlgebra.Render.Annotated
import SymbolicAlgebra.Render.Latex

/-! # Styles

The three ways of writing an expression, by name. -/

namespace SymbolicAlgebra

/-- A way of writing an expression. -/
inductive Style where
  | plain | annotated | latex
  deriving DecidableEq, Repr

/-- The text of an expression. -/
def Expr.render {α : Type} [Scalar α] [Numeral α] : Style → Expr α → String
  | .plain => Render.plain
  | .annotated => Render.annotated
  | .latex => Render.latex

end SymbolicAlgebra
