import SymbolicAlgebra.Simplify.Node
import SymbolicAlgebra.Simplify.Product

/-! # Simplification

The solver of bounded depth, and simplification by it: a step works through an expression from its
root, and `simplify` takes steps until two results in a row are equal. That the depth always
suffices is not proved, so what holds of the rules is also stated of the solver at every depth. -/

namespace SymbolicAlgebra

namespace Simplify

variable {α : Type} [Scalar α]

/-- The rules, with the tasks they give rise to left to a solver. -/
def perform (solve : Solver α) : Task α → Option (Expr α)
  | .step e => stepNode solve e
  | .sum terms => addTerms solve terms
  | .product factors => multiplyFactors solve factors

/-- The solver that gives up on tasks nested deeper than its fuel. -/
def solve : Nat → Solver α
  | 0, _ => none
  | fuel + 1, task => perform (solve fuel) task

/-- Fuel for a task: the depth to which its subtasks are followed, exponential in its size. -/
def fuelFor (task : Task α) : Nat := 1 <<< (task.size + 16)

omit [Scalar α] in
theorem fuelFor_eq_succ (task : Task α) : ∃ depth, fuelFor task = depth + 1 := by
  have hpos : 0 < fuelFor task := by
    rw [fuelFor, Nat.one_shiftLeft]
    exact Nat.two_pow_pos _
  exact ⟨fuelFor task - 1, by omega⟩

/-- What is made of a task that the solver gives up on: its expression with zero added. The value
is the same and the shape is not, so a step that changes nothing has really been taken. -/
def unsolved (task : Task α) : Expr α := .sumOf [task.toExpr, .const Scalar.zero]

/-- What a task comes to. -/
def run (task : Task α) : Expr α := (solve (fuelFor task) task).getD (unsolved task)

/-- The most steps that simplification takes before it gives up on reaching a fixed point. -/
def maxPasses : Nat := 256

end Simplify

namespace Expr

variable {α : Type} [Scalar α]

/-- The expression after one step of simplification. -/
def simplifyStep (e : Expr α) : Expr α := Simplify.run (.step e)

/-- The simplified sum of terms. The terms themselves are not simplified before they are added. -/
def buildSum (terms : List (Expr α)) : Expr α := Simplify.run (.sum terms)

/-- The simplified product of factors. The factors themselves are not simplified before they are
multiplied. -/
def buildProduct (factors : List (Expr α)) : Expr α := Simplify.run (.product factors)

/-- Steps until two results in a row are equal, and one more, or `fuel` steps. -/
def settle : Nat → Expr α → Expr α
  | 0, current => current
  | fuel + 1, current =>
    let next := current.simplifyStep
    if next == current then next.simplifyStep else settle fuel next

/-- The simplified expression. -/
def simplify (e : Expr α) : Expr α := settle (Simplify.maxPasses - 1) e.simplifyStep

end Expr

end SymbolicAlgebra
