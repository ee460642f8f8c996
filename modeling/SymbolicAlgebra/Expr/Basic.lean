import SymbolicAlgebra.Function

/-! # Expressions

An expression is a number, a variable of one letter, or a function applied to expressions. The
familiar nodes (`sum`, `power`, `log`, …) are names for the functions applied.

Arguments of an expression may stand in any order and in any number; `Expr.Order` says which order
is canonical. -/

namespace SymbolicAlgebra

/-- An expression over the numbers `α`. -/
inductive Expr (α : Type) where
  | const (value : α)
  | var (name : Char)
  | unary (f : Unary) (arg : Expr α)
  | binary (f : Binary) (left right : Expr α)
  | nary (f : Nary) (args : List (Expr α))
  deriving Inhabited

namespace Expr

variable {α : Type}

/-! ### Nodes by name -/

@[match_pattern] abbrev bracket (kind : Bracket) (arg : Expr α) : Expr α :=
  .unary (.bracket kind) arg

@[match_pattern] abbrev trig (kind : Trig) (arg : Expr α) : Expr α := .unary (.trig kind) arg

@[match_pattern] abbrev sign (arg : Expr α) : Expr α := .unary .sign arg

@[match_pattern] abbrev fraction (num den : Expr α) : Expr α := .binary .fraction num den

@[match_pattern] abbrev power (base exponent : Expr α) : Expr α := .binary .power base exponent

/-- The logarithm of an argument to a base, which comes first. -/
@[match_pattern] abbrev log (base arg : Expr α) : Expr α := .binary .log base arg

@[match_pattern] abbrev mod (dividend divisor : Expr α) : Expr α := .binary .mod dividend divisor

@[match_pattern] abbrev sum (terms : List (Expr α)) : Expr α := .nary .sum terms

@[match_pattern] abbrev product (factors : List (Expr α)) : Expr α := .nary .product factors

@[match_pattern] abbrev min (args : List (Expr α)) : Expr α := .nary .min args

@[match_pattern] abbrev max (args : List (Expr α)) : Expr α := .nary .max args

/-! ### Parts of a node -/

/-- What the node is. -/
def head : Expr α → Head
  | const _ => .const
  | var _ => .var
  | unary f _ => .unary f
  | binary f _ _ => .binary f
  | nary f _ => .nary f

/-- The arguments of the node, from left to right. -/
def children : Expr α → List (Expr α)
  | const _ => []
  | var _ => []
  | unary _ a => [a]
  | binary _ a b => [a, b]
  | nary _ as => as

/-- The number of a constant. -/
def constant? : Expr α → Option α
  | const value => some value
  | _ => none

def isConst (e : Expr α) : Bool := e.constant?.isSome

def isSum : Expr α → Bool
  | sum _ => true
  | _ => false

/-- The constant that a product starts with. -/
def leadingCoefficient? : Expr α → Option α
  | product (const value :: _) => some value
  | _ => none

mutual

/-- The number of nodes. -/
def size : Expr α → Nat
  | const _ => 1
  | var _ => 1
  | unary _ a => a.size + 1
  | binary _ a b => a.size + b.size + 1
  | nary _ as => sizeList as + 1

/-- The number of nodes of all expressions of a list. -/
def sizeList : List (Expr α) → Nat
  | [] => 0
  | a :: as => a.size + sizeList as

end

/-! ### Numbers as expressions -/

variable [Scalar α]

/-- Whether the expression is a constant equal to `x`. -/
def isConstant (x : α) (e : Expr α) : Bool :=
  match e.constant? with
  | some value => Scalar.eq value x
  | none => false

def isZero (e : Expr α) : Bool := e.isConstant Scalar.zero

def isOne (e : Expr α) : Bool := e.isConstant Scalar.one

/-- Whether the expression is the base of natural logarithms. -/
def isEuler (e : Expr α) : Bool := e.isConstant Scalar.euler

/-- Whether the expression is a negative constant, or a product that starts with one. -/
def isNegative (e : Expr α) : Bool :=
  match e with
  | const value => Scalar.lt value Scalar.zero
  | e =>
    match e.leadingCoefficient? with
    | some value => Scalar.lt value Scalar.zero
    | none => false

/-- The natural power `e ^ exponent`. -/
def exp (exponent : Expr α) : Expr α := power (const Scalar.euler) exponent

/-- The power with exponent one half. -/
def sqrt (e : Expr α) : Expr α := power e (const Scalar.half)

/-- The power with exponent minus one. -/
def recip (e : Expr α) : Expr α := power e (const Scalar.negOne)

/-- The natural logarithm. -/
def ln (arg : Expr α) : Expr α := log (const Scalar.euler) arg

/-- A sum or product of at most one argument as that argument, or as the sum or product of no
numbers. -/
def downgrade : Expr α → Expr α
  | sum [] => const Scalar.zero
  | sum [t] => t
  | product [] => const Scalar.one
  | product [f] => f
  | e => e

end Expr

end SymbolicAlgebra
