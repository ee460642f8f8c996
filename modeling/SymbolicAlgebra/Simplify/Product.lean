import SymbolicAlgebra.Simplify.Sum

/-! # Products

Factors are multiplied by turning fractions into powers, flattening products within products,
multiplying the constants, and collecting like bases. What then has a negative exponent becomes the
denominator of a fraction. A factor next to a sum of two terms is distributed over it instead. -/

namespace SymbolicAlgebra.Simplify

variable {α : Type}

mutual

/-- The factors of an expression, those of nested products included. -/
def factorsOf : Expr α → List (Expr α)
  | .product factors => factorsOfList factors
  | e => [e]

/-- The factors of all expressions of a list. -/
def factorsOfList : List (Expr α) → List (Expr α)
  | [] => []
  | e :: es => factorsOf e ++ factorsOfList es

end

/-- Base and exponent of a power. -/
def power? : Expr α → Option (Expr α × Expr α)
  | .power base exponent => some (base, exponent)
  | _ => none

variable [Scalar α]

/-! ### Distribution -/

/-- The two products of `a (b + c) = ab + ac`, for exactly one factor that is no sum and one sum of
two terms. -/
def distribute? : List (Expr α) → Option (List (Expr α))
  | [other, .sum [first, second]] =>
    if other.isSum then none
    else some [Expr.productOf [other, first], Expr.productOf [other, second]]
  | _ => none

/-! ### Reciprocals -/

/-- Minus the exponent. -/
def negateExponent (solve : Solver α) (exponent : Expr α) : Option (Expr α) :=
  solve (.product [.const Scalar.negOne, exponent])

mutual

/-- The factors of one over an expression: the exponent of a power is negated, a product is taken
factor by factor, and anything else is raised to minus one. -/
def reciprocal (solve : Solver α) : Expr α → Option (List (Expr α))
  | .power base exponent => do
    let negated ← negateExponent solve exponent
    some [.power base negated]
  | .product factors => reciprocals solve factors
  | e => some [e.recip]

/-- The factors of one over each expression of a list. -/
def reciprocals (solve : Solver α) : List (Expr α) → Option (List (Expr α))
  | [] => some []
  | e :: es => do
    let first ← reciprocal solve e
    let rest ← reciprocals solve es
    some (first ++ rest)

end

/-- The factors with every fraction as its numerator and the factors of one over its
denominator. -/
def expandFractions (solve : Solver α) : List (Expr α) → Option (List (Expr α))
  | [] => some []
  | .fraction num den :: es => do
    let below ← reciprocal solve den
    let rest ← expandFractions solve es
    some (num :: below ++ rest)
  | e :: es => do
    let rest ← expandFractions solve es
    some (e :: rest)

/-! ### Like bases -/

/-- Powers of the same base, with their exponents in the order of the powers. -/
structure LikeBases (α : Type) where
  base : Expr α
  exponents : List (Expr α)

namespace LikeBases

/-- The groups with one more power, which joins the first group of its base. -/
def add (base exponent : Expr α) : List (LikeBases α) → List (LikeBases α)
  | [] => [⟨base, [exponent]⟩]
  | g :: groups =>
    if g.base == base then ⟨g.base, g.exponents ++ [exponent]⟩ :: groups
    else g :: add base exponent groups

/-- The groups of powers with like bases. -/
def collect (powers : List (Expr α × Expr α)) : List (LikeBases α) :=
  powers.foldl (fun groups p => add p.1 p.2 groups) []

/-- The powers that the groups amount to. -/
def toPowers (solve : Solver α) : List (LikeBases α) → Option (List (Expr α))
  | [] => some []
  | g :: groups => do
    let exponent ← solve (.sum g.exponents)
    let rest ← toPowers solve groups
    some (.power g.base exponent :: rest)

end LikeBases

/-- Powers of like bases put together: `a ^ x * a ^ y = a ^ (x + y)`. -/
def combineLikeBases (solve : Solver α) (powers : List (Expr α × Expr α)) :
    Option (List (Expr α)) :=
  LikeBases.toPowers solve (LikeBases.collect powers)

/-- Each factor after a step, as a power: one that is no power gets the exponent one. -/
def asPowers (solve : Solver α) : List (Expr α) → Option (List (Expr α))
  | [] => some []
  | .power base exponent :: es => do
    let e ← solve (.step (.power base exponent))
    let rest ← asPowers solve es
    some (e :: rest)
  | e :: es => do
    let base ← solve (.step e)
    let rest ← asPowers solve es
    some (.power base (.const Scalar.one) :: rest)

/-! ### The rule -/

/-- The product of the constants, unless it is one. -/
def coefficient (es : List (Expr α)) : List (Expr α) :=
  let total := Scalar.product (constantsOf es)
  if Scalar.eq total Scalar.one then [] else [.const total]

/-- Whether a factor belongs below the line: a power with a negative exponent. -/
def isBelow : Expr α → Bool
  | .power _ exponent => exponent.isNegative
  | _ => false

/-- The denominators of powers below the line, their exponents negated. -/
def denominators (solve : Solver α) : List (Expr α) → Option (List (Expr α))
  | [] => some []
  | .power base exponent :: es => do
    let negated ← negateExponent solve exponent
    let e ← solve (.step (.power base negated))
    let rest ← denominators solve es
    some (e :: rest)
  | _ :: es => denominators solve es

/-- The factors as a fraction if some belong below the line, and as a product otherwise. -/
def assemble (solve : Solver α) (factors : List (Expr α)) : Option (Expr α) := do
  let above := factors.filter fun e => !isBelow e
  let below := factors.filter isBelow
  if below.isEmpty then
    some (Expr.product above).downgrade
  else
    let dens ← denominators solve below
    let num ← if above.isEmpty then some (.const Scalar.one) else solve (.product above)
    let den ← solve (.product dens)
    some (.fraction num den)

/-- The product of factors in ascending order that are not distributed. -/
def multiplyPowers (solve : Solver α) (factors : List (Expr α)) : Option (Expr α) := do
  let expanded ← expandFractions solve factors
  let flat := factorsOfList expanded
  let pieces ← asPowers solve (nonConstants flat)
  let powers ← combineLikeBases solve (pieces.filterMap power?)
  let leftovers := pieces.filter fun e => (power? e).isNone
  let stepped ← solve.steps (coefficient flat ++ powers ++ leftovers)
  assemble solve (Expr.ascending stepped)

/-- The product of factors. A single factor is left alone, a zero makes everything zero, ones are
dropped, and two constants are multiplied directly. -/
def multiplyFactors (solve : Solver α) (factors : List (Expr α)) : Option (Expr α) :=
  match factors with
  | [f] => some f
  | factors =>
    if factors.any Expr.isZero then some (.const Scalar.zero)
    else
      match factors.filter fun f => !f.isOne with
      | [] => some (.const Scalar.one)
      | [f] => some f
      | [.const a, .const b] => some (.const (Scalar.mul a b))
      | others =>
        let sorted := Expr.ascending others
        match distribute? sorted with
        | some terms => solve (.sum terms)
        | none => multiplyPowers solve sorted

end SymbolicAlgebra.Simplify
