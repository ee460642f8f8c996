import SymbolicAlgebra.Expr.Basic
import SymbolicAlgebra.StableSort

/-! # The canonical order

Expressions are compared first by the priority of their heads and then argument by argument, where
a shorter list of arguments comes first. Logarithms compare their arguments before their bases.
Equality is defined apart from the order: constants are equal as numbers or both not numbers, and
everything else is equal part by part.

Sums keep their terms in descending order; products, minima and maxima keep their arguments in
ascending order. The constructors here sort and do nothing else. -/

namespace SymbolicAlgebra.Expr

variable {α : Type} [Scalar α]

mutual

/-- The canonical order. -/
def compare : Expr α → Expr α → Ordering
  | const x, e => (Ord.compare Head.const.priority e.head.priority).then <|
    match e with
    | const y => Scalar.order x y
    | _ => .eq
  | var x, e => (Ord.compare Head.var.priority e.head.priority).then <|
    match e with
    | var y => Ord.compare x y
    | _ => .eq
  | unary f a, e => (Ord.compare (Head.unary f).priority e.head.priority).then <|
    match e with
    | unary _ b => compare a b
    | _ => .eq
  | binary f a b, e => (Ord.compare (Head.binary f).priority e.head.priority).then <|
    match e with
    | binary _ c d =>
      if f = .log then (compare b d).then (compare a c) else (compare a c).then (compare b d)
    | _ => .eq
  | nary f as, e => (Ord.compare (Head.nary f).priority e.head.priority).then <|
    match e with
    | nary _ bs => (Ord.compare as.length bs.length).then (compareList as bs)
    | _ => .eq

/-- The first difference of two lists of arguments. -/
def compareList : List (Expr α) → List (Expr α) → Ordering
  | a :: as, b :: bs => (compare a b).then (compareList as bs)
  | _, _ => .eq

end

mutual

/-- Structural equality. -/
def beq : Expr α → Expr α → Bool
  | const x, const y => Scalar.same x y
  | var x, var y => x == y
  | unary f a, unary g b => f == g && beq a b
  | binary f a b, binary g c d => f == g && beq a c && beq b d
  | nary f as, nary g bs => f == g && beqList as bs
  | _, _ => false

/-- Structural equality of lists of arguments. -/
def beqList : List (Expr α) → List (Expr α) → Bool
  | [], [] => true
  | a :: as, b :: bs => beq a b && beqList as bs
  | _, _ => false

end

instance : BEq (Expr α) := ⟨beq⟩

/-! ### Sorting -/

/-- The expressions in ascending canonical order. -/
def ascending (es : List (Expr α)) : List (Expr α) :=
  StableSort.sort (fun a b => compare a b != .gt) es

/-- The expressions in descending canonical order. -/
def descending (es : List (Expr α)) : List (Expr α) :=
  StableSort.sort (fun a b => compare b a != .gt) es

/-- The sum of the terms in their canonical order. -/
def sumOf (terms : List (Expr α)) : Expr α := sum (descending terms)

/-- The product of the factors in their canonical order. -/
def productOf (factors : List (Expr α)) : Expr α := product (ascending factors)

/-- The minimum of the arguments in their canonical order. -/
def minOf (args : List (Expr α)) : Expr α := min (ascending args)

/-- The maximum of the arguments in their canonical order. -/
def maxOf (args : List (Expr α)) : Expr α := max (ascending args)

/-- Minus one times the expression. The factors of a product are not nested. -/
def neg : Expr α → Expr α
  | product factors => productOf (const Scalar.negOne :: factors)
  | e => productOf [const Scalar.negOne, e]

end SymbolicAlgebra.Expr
