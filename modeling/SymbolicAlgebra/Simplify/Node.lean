import SymbolicAlgebra.Simplify.Task

/-! # Single nodes

The rules of fractions, powers, logarithms and the other functions. A rule looks at a node and its
arguments only; where none applies, the arguments are taken one step further. A function of numbers
is computed as evaluation computes it. What a rule recognizes without computing, such as a logarithm
of its own base, or rewrites first, such as a quotient that is not whole, need not give the number
that evaluation gives. -/

namespace SymbolicAlgebra.Simplify

variable {α : Type} [Scalar α]

/-! ### Fractions -/

/-- A quotient as a product: `a / b = a * b ^ -1`. -/
def multiplyReciprocal (solve : Solver α) (num den : Expr α) : Option (Expr α) := do
  let inverse ← solve (.step den.recip)
  solve (.product [num, inverse])

/-- A fraction whose parts have been simplified. Fractions within it are multiplied across, and a
quotient of constants is folded if it is whole. -/
def divide (solve : Solver α) : Expr α → Expr α → Option (Expr α)
  | .fraction a b, .fraction c d => do
    let a ← solve (.step a)
    let d ← solve (.step d)
    let num ← solve (.product [a, d])
    let b ← solve (.step b)
    let c ← solve (.step c)
    let den ← solve (.product [b, c])
    some (.fraction num den)
  | .fraction a b, den => do
    let num ← solve (.step a)
    let b ← solve (.step b)
    let den ← solve (.product [b, den])
    some (.fraction num den)
  | num, .fraction c d => do
    let d ← solve (.step d)
    let num ← solve (.product [num, d])
    let den ← solve (.step c)
    some (.fraction num den)
  | .const a, .const b =>
    if Scalar.isIntegral (Scalar.div a b) then some (.const (Scalar.div a b))
    else multiplyReciprocal solve (.const a) (.const b)
  | num, den => multiplyReciprocal solve num den

/-- One step at a fraction. -/
def stepFraction (solve : Solver α) (num den : Expr α) : Option (Expr α) := do
  let num ← solve (.step num)
  let den ← solve (.step den)
  divide solve num den

/-! ### Powers and logarithms -/

/-- A power of constants, if it is a whole number below a thousand. -/
def foldPower? (base exponent : α) : Option α :=
  let value := Scalar.pow base exponent
  if Scalar.isIntegral value && Scalar.lt value Scalar.thousand then some value else none

/-- A power to the exponent zero or one, or of constants: the result, if it is simpler. -/
def constantPower? (base : Expr α) (exponent : α) : Option (Expr α) :=
  match base.constant?.bind fun value => foldPower? value exponent with
  | some value => some (.const value)
  | none =>
    if Scalar.eq exponent Scalar.zero then some (.const Scalar.one)
    else if Scalar.eq exponent Scalar.one then some base
    else none

/-- A power whose arguments are only taken one step further. -/
def stepParts (solve : Solver α) (f : Binary) (left right : Expr α) : Option (Expr α) := do
  let left ← solve (.step left)
  let right ← solve (.step right)
  some (.binary f left right)

/-- One step at a power: powers of fractions, powers and products go to their parts, and
`b ^ log_b x = x`. -/
def stepPower (solve : Solver α) (base exponent : Expr α) : Option (Expr α) :=
  match base with
  | .fraction num den => some (.fraction (.power num exponent) (.power den exponent))
  | .power inner innerExponent => do
    let product ← solve (.product [exponent, innerExponent])
    some (.power inner product)
  | .product factors => solve (.product (factors.map fun f => .power f exponent))
  | base =>
    match exponent with
    | .log logBase arg =>
      if logBase == base then some arg else stepParts solve .power base exponent
    | .const p =>
      match constantPower? base p with
      | some e => some e
      | none => stepParts solve .power base exponent
    | exponent => stepParts solve .power base exponent

/-- One step at a logarithm: `log_b b = 1`, `log_b (b ^ p) = p` and `log_b 1 = 0`. -/
def stepLog (solve : Solver α) (base arg : Expr α) : Option (Expr α) :=
  if arg == base then some (.const Scalar.one)
  else
    match arg with
    | .power powerBase exponent =>
      if powerBase == base then some exponent else stepParts solve .log base arg
    | arg => if arg.isOne then some (.const Scalar.zero) else stepParts solve .log base arg

/-! ### Other functions -/

/-- A finite number as a constant. -/
def finite? (x : α) : Option (Expr α) := if Scalar.isFinite x then some (.const x) else none

/-- A function that is not folded: its argument is taken one step further. -/
def stepArg (solve : Solver α) (f : Unary) (arg : Expr α) : Option (Expr α) := do
  let arg ← solve (.step arg)
  some (.unary f arg)

/-- One step at a function that is folded on constants if the result is finite. -/
def stepFinite (solve : Solver α) (f : Unary) (arg : Expr α) : Option (Expr α) :=
  match arg.constant?.bind fun x => finite? (f.apply x) with
  | some e => some e
  | none => stepArg solve f arg

/-- A trigonometric function of a constant, if the result is whole. -/
def foldTrig? (kind : Trig) (arg : Expr α) : Option (Expr α) :=
  arg.constant?.bind fun x =>
    let value := kind.apply x
    if Scalar.isIntegral value then some (.const value) else none

/-- One step at a trigonometric function, which cancels its inverse function. -/
def stepTrig (solve : Solver α) (kind : Trig) (arg : Expr α) : Option (Expr α) :=
  match foldTrig? kind arg with
  | some e => some e
  | none =>
    match arg with
    | .trig inner innerArg =>
      if kind.cancels? = some inner then solve (.step innerArg)
      else stepArg solve (.trig kind) arg
    | arg => stepArg solve (.trig kind) arg

/-- One step at a remainder, which is folded on constants if it is finite. -/
def stepMod (solve : Solver α) (dividend divisor : Expr α) : Option (Expr α) :=
  match dividend, divisor with
  | .const x, .const y =>
    match finite? (Scalar.rem x y) with
    | some e => some e
    | none => stepParts solve .mod dividend divisor
  | _, _ => stepParts solve .mod dividend divisor

/-- The constants among simplified arguments of a minimum or maximum folded into one, unless the
result is not finite. -/
def foldConstants (f : Nary) (build : List (Expr α) → Expr α) (args : List (Expr α)) : Expr α :=
  let rest := args.filter fun e => !e.isConst
  let constants := args.filter Expr.isConst
  match constants.filterMap Expr.constant? with
  | [] => build rest
  | values =>
    match finite? (f.apply values) with
    | some folded => if rest.isEmpty then folded else build (rest ++ [folded])
    | none => build (rest ++ constants)

/-- One step at a minimum. -/
def stepMin (solve : Solver α) (args : List (Expr α)) : Option (Expr α) := do
  let args ← solve.steps args
  some (foldConstants .min Expr.minOf args)

/-- One step at a maximum. -/
def stepMax (solve : Solver α) (args : List (Expr α)) : Option (Expr α) := do
  let args ← solve.steps args
  some (foldConstants .max Expr.maxOf args)

/-- One step at any node. -/
def stepNode (solve : Solver α) : Expr α → Option (Expr α)
  | .const value => some (.const value)
  | .var name => some (.var name)
  | .sum terms => do
    let terms ← solve.steps terms
    solve (.sum terms)
  | .product factors => do
    let factors ← solve.steps factors
    solve (.product factors)
  | .min args => stepMin solve args
  | .max args => stepMax solve args
  | .fraction num den => stepFraction solve num den
  | .power base exponent => stepPower solve base exponent
  | .log base arg => stepLog solve base arg
  | .mod dividend divisor => stepMod solve dividend divisor
  | .bracket kind arg => stepFinite solve (.bracket kind) arg
  | .trig kind arg => stepTrig solve kind arg
  | .sign arg => stepFinite solve .sign arg

end SymbolicAlgebra.Simplify
