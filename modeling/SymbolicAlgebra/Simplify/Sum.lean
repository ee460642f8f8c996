import SymbolicAlgebra.Simplify.Task

/-! # Sums

Terms are added up by flattening sums within sums, adding the constants, and collecting like terms.
A term is a coefficient and a list of factors; terms are alike if their factors are equal. The
groups of like terms stand in the order of their first members. -/

namespace SymbolicAlgebra.Simplify

variable {α : Type}

mutual

/-- The terms of an expression, those of nested sums included. -/
def termsOf : Expr α → List (Expr α)
  | .sum terms => termsOfList terms
  | e => [e]

/-- The terms of all expressions of a list. -/
def termsOfList : List (Expr α) → List (Expr α)
  | [] => []
  | e :: es => termsOf e ++ termsOfList es

end

/-- The numbers of the constants in a list. -/
def constantsOf (es : List (Expr α)) : List α := es.filterMap Expr.constant?

/-- The expressions of a list that are no constants. -/
def nonConstants (es : List (Expr α)) : List (Expr α) := es.filter fun e => !e.isConst

variable [Scalar α]

/-! ### Like terms -/

/-- A term as a coefficient and other factors. -/
def splitCoefficient : Expr α → α × List (Expr α)
  | .product (.const c :: factors) => (c, factors)
  | .product factors => (Scalar.one, factors)
  | e => (Scalar.one, [e])

/-- Terms with the same factors: the sum of their coefficients, and whether there are several. -/
structure LikeTerms (α : Type) where
  coefficient : α
  factors : List (Expr α)
  merged : Bool

namespace LikeTerms

/-- The groups with one more term, which joins the first group of its factors. -/
def add (coefficient : α) (factors : List (Expr α)) : List (LikeTerms α) → List (LikeTerms α)
  | [] => [⟨coefficient, factors, false⟩]
  | g :: groups =>
    if Expr.beqList g.factors factors then
      ⟨Scalar.add g.coefficient coefficient, g.factors, true⟩ :: groups
    else g :: add coefficient factors groups

/-- The groups of like terms. -/
def collect (terms : List (Expr α)) : List (LikeTerms α) :=
  terms.foldl (fun groups t => add (splitCoefficient t).1 (splitCoefficient t).2 groups) []

/-- The term that a group amounts to. A single term keeps its factors as they are. -/
def toTerm (solve : Solver α) (g : LikeTerms α) : Option (Expr α) :=
  if g.merged then solve (.product [.const g.coefficient, .product g.factors])
  else some (.product (.const g.coefficient :: g.factors))

/-- The terms that the groups amount to. -/
def toTerms (solve : Solver α) : List (LikeTerms α) → Option (List (Expr α))
  | [] => some []
  | g :: groups => do
    let t ← g.toTerm solve
    let ts ← toTerms solve groups
    some (t :: ts)

end LikeTerms

/-- Like terms put together: `a + a = 2a`, `2a + 3a = 5a`. -/
def combineLikeTerms (solve : Solver α) (terms : List (Expr α)) : Option (List (Expr α)) :=
  LikeTerms.toTerms solve (LikeTerms.collect terms)

/-! ### The rule -/

/-- The sum of the constants, unless it is zero. -/
def constantTerm (es : List (Expr α)) : List (Expr α) :=
  let total := Scalar.sum (constantsOf es)
  if Scalar.eq total Scalar.zero then [] else [.const total]

/-- The sum of terms of which none is zero. -/
def addNonzero (solve : Solver α) (terms : List (Expr α)) : Option (Expr α) := do
  let flat := termsOfList (Expr.ascending terms)
  let others ← combineLikeTerms solve (nonConstants flat)
  let stepped ← solve.steps (constantTerm flat ++ others)
  some (Expr.sumOf stepped).downgrade

/-- The sum of terms. A single term is left alone, zeros are dropped, and two constants are added
directly. -/
def addTerms (solve : Solver α) (terms : List (Expr α)) : Option (Expr α) :=
  match terms with
  | [t] => some t
  | terms =>
    match terms.filter fun t => !t.isZero with
    | [] => some (.const Scalar.zero)
    | [t] => some t
    | [.const a, .const b] => some (.const (Scalar.add a b))
    | nonzero => addNonzero solve nonzero

end SymbolicAlgebra.Simplify
