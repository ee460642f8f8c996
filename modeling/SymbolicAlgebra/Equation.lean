import SymbolicAlgebra.Derivative
import SymbolicAlgebra.Evaluate
import SymbolicAlgebra.Expr.Walk
import SymbolicAlgebra.Reader.Parse
import SymbolicAlgebra.Render.Style

/-! # Equations

An equation is an expression together with its free variables. Simplifying and differentiating give
new equations, whose free variables are those that still occur. -/

namespace SymbolicAlgebra

/-- An expression and its free variables. -/
structure Equation (α : Type) where
  root : Expr α
  vars : VarSet

namespace Equation

variable {α : Type} [Scalar α]

instance : BEq (Equation α) := ⟨fun a b => a.root == b.root && decide (a.vars = b.vars)⟩

/-- The equation of an expression whose free variables are those that occur in it. -/
def ofExpr (root : Expr α) : Equation α := ⟨root, root.freeVars⟩

/-- The equation in simplified form. -/
def simplified (eqn : Equation α) : Equation α := .ofExpr eqn.root.simplify

/-- The simplified derivative by a variable. -/
def derivative (eqn : Equation α) (v : Char) : Except Cause (Equation α) := do
  let d ← eqn.root.derivative v
  .ok (.ofExpr d.simplify)

/-- The value of the equation under the bindings. -/
def evaluate (eqn : Equation α) (b : Bindings α) : Except Cause α := eqn.root.eval b

variable [Numeral α]

/-- The equation that a text spells. -/
def parseChars (text : List Char) : Except Fault (Equation α) := do
  let (root, vars) ← Expr.parseChars text
  .ok ⟨root, vars⟩

/-- The equation that a text spells. -/
def parse (text : String) : Except Fault (Equation α) := parseChars text.toList

def render (style : Style) (eqn : Equation α) : String := eqn.root.render style

end Equation

end SymbolicAlgebra
