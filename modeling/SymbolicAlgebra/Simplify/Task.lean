import SymbolicAlgebra.Expr.Order

/-! # Tasks

Simplifying one node, adding up terms and multiplying factors need each other without end in sight:
a product may turn into a sum of products, and every piece put together is simplified in turn. The
rules are therefore written against a *solver* of smaller tasks, and the solver of bounded depth in
`Simplify.Solve` ties the knot. A solver that gives up says so with `none`. -/

namespace SymbolicAlgebra

/-- A job of the simplifier. -/
inductive Task (α : Type) where
  /-- One step at a node. -/
  | step (e : Expr α)
  /-- The sum of terms. -/
  | sum (terms : List (Expr α))
  /-- The product of factors. -/
  | product (factors : List (Expr α))

namespace Task

variable {α : Type} [Scalar α]

/-- The number of nodes in a task. -/
def size : Task α → Nat
  | step e => e.size
  | sum terms => Expr.sizeList terms
  | product factors => Expr.sizeList factors

/-- The expression that a task is about, before anything is done to it. -/
def toExpr : Task α → Expr α
  | step e => e
  | sum terms => .sumOf terms
  | product factors => .productOf factors

end Task

/-- A way of doing tasks that may give up. -/
abbrev Solver (α : Type) : Type := Task α → Option (Expr α)

namespace Solver

variable {α : Type}

/-- One step at every expression of a list. -/
def steps (solve : Solver α) : List (Expr α) → Option (List (Expr α))
  | [] => some []
  | e :: es => do
    let e' ← solve (.step e)
    let es' ← steps solve es
    some (e' :: es')

end Solver

end SymbolicAlgebra
