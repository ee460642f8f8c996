/-! # Scalars

The numbers that expressions are made of, as a class of operations. Everything symbolic is written
over this class, so the same rules run on doubles and can be read over exact numbers. Only the
operations are given here; what a theorem needs of them it assumes.

A number that differs from itself is not a number (`isNaN`). Sums of values start at `negZero`,
the one number whose addition changes nothing, not even the sign of a zero. -/

namespace SymbolicAlgebra

/-- The numbers of an expression, with the operations that evaluation and simplification need. -/
class Scalar (α : Type) where
  zero : α
  negZero : α
  one : α
  negOne : α
  two : α
  half : α
  negHalf : α
  ten : α
  thousand : α
  infinity : α
  negInfinity : α
  pi : α
  euler : α
  golden : α
  add : α → α → α
  mul : α → α → α
  div : α → α → α
  pow : α → α → α
  rem : α → α → α
  floor : α → α
  ceil : α → α
  abs : α → α
  ln : α → α
  sin : α → α
  cos : α → α
  tan : α → α
  arcsin : α → α
  arccos : α → α
  arctan : α → α
  eq : α → α → Bool
  lt : α → α → Bool
  isFinite : α → Bool
  isIntegral : α → Bool

namespace Scalar

variable {α : Type} [Scalar α]

/-- A number that differs from itself. -/
def isNaN (x : α) : Bool := !eq x x

/-- Equal as numbers, or both not numbers. -/
def same (x y : α) : Bool := eq x y || (isNaN x && isNaN y)

/-- The numeric order, with what is not a number last. -/
def order (x y : α) : Ordering :=
  match isNaN x, isNaN y with
  | true, true => .eq
  | true, false => .gt
  | false, true => .lt
  | false, false => if lt x y then .lt else if lt y x then .gt else .eq

/-- One over a number. -/
def recip (x : α) : α := div one x

/-- The logarithm of `x` to the base `b`, by natural logarithms. -/
def log (b x : α) : α := div (ln x) (ln b)

/-- The sign of a number: minus one, zero or one; what is not a number is kept. -/
def sign (x : α) : α :=
  if eq x zero then zero else if isNaN x then x else if lt x zero then negOne else one

/-- The sum of the numbers, from left to right. -/
def sum (xs : List α) : α := xs.foldl add negZero

/-- The product of the numbers, from left to right. -/
def product (xs : List α) : α := xs.foldl mul one

/-- The smaller of two numbers: the first on a tie, what is not a number if there is one. -/
def smaller (x y : α) : α :=
  if isNaN x then x else if isNaN y then y else if lt y x then y else x

/-- The larger of two numbers: the first on a tie, what is not a number if there is one. -/
def larger (x y : α) : α :=
  if isNaN x then x else if isNaN y then y else if lt x y then y else x

/-- The smallest of the numbers. -/
def minimum (xs : List α) : α := xs.foldl smaller infinity

/-- The largest of the numbers. -/
def maximum (xs : List α) : α := xs.foldl larger negInfinity

end Scalar

/-- The decimal text of numbers. -/
class Numeral (α : Type) where
  /-- The number that a text spells, if it spells one. -/
  read : List Char → Option α
  /-- The text of a number. -/
  text : α → String

end SymbolicAlgebra
