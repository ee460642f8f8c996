import SymbolicAlgebra.Expr.Basic
import SymbolicAlgebra.VarSet

/-! # Walks

A walk visits the nodes of an expression one at a time, children from left to right and before
their parent. It keeps a stack instead of recursing: the node on top is visited if it has no
children or if its last child was the node visited last, and otherwise its children are stacked.
Nodes are told apart by their position, so equal children are not confused. -/

namespace SymbolicAlgebra

/-- A node of an expression. Its position lists the child numbers on the way from the node up to
the root. -/
structure Spot (α : Type) where
  position : List Nat
  expr : Expr α

namespace Spot

variable {α : Type}

/-- The nodes of the arguments of a node, numbered from `i`. -/
def number (position : List Nat) : Nat → List (Expr α) → List (Spot α)
  | _, [] => []
  | i, e :: es => ⟨i :: position, e⟩ :: number position (i + 1) es

/-- The child nodes, from left to right. -/
def children (s : Spot α) : List (Spot α) := number s.position 0 s.expr.children

end Spot

/-- The state of a walk: the nodes that wait, the next one first, and where it was last. -/
structure Walk (α : Type) where
  stack : List (Spot α)
  last : Option (List Nat)

namespace Walk

variable {α : Type}

/-- The walk that is about to enter an expression. -/
def start (e : Expr α) : Walk α := ⟨[⟨[], e⟩], none⟩

/-- One move: the node on top is visited or its children are stacked. A walk with nothing on its
stack has ended. -/
def step : Walk α → Option (Option (Spot α) × Walk α)
  | ⟨[], _⟩ => none
  | ⟨s :: rest, last⟩ =>
    match s.children.getLast? with
    | none => some (some s, ⟨rest, some s.position⟩)
    | some child =>
      if last = some child.position then some (some s, ⟨rest, some s.position⟩)
      else some (none, ⟨s.children ++ s :: rest, last⟩)

/-- The nodes visited in at most `moves` moves. -/
def run : Nat → Walk α → List (Spot α)
  | 0, _ => []
  | moves + 1, w =>
    match w.step with
    | none => []
    | some (some s, next) => s :: run moves next
    | some (none, next) => run moves next

end Walk

namespace Expr

variable {α : Type}

/-- The nodes in the order of a walk. A node is stacked at most once and visited once, so twice
the number of nodes is enough moves. -/
def spots (e : Expr α) : List (Spot α) := (Walk.start e).run (2 * e.size)

/-- The subexpressions in the order of a walk: children before parents, from left to right. -/
def postOrder (e : Expr α) : List (Expr α) := e.spots.map Spot.expr

/-- The variable that the expression is. -/
def var? : Expr α → Option Char
  | var name => some name
  | _ => none

/-- The variables that occur in the expression. -/
def freeVars (e : Expr α) : VarSet := .ofList (e.postOrder.filterMap var?)

end Expr

end SymbolicAlgebra
