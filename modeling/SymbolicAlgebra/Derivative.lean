import SymbolicAlgebra.Fault
import SymbolicAlgebra.Simplify.Solve

/-! # Derivatives

The derivative of an expression by a variable, put together with simplified sums and products but
not simplified any further. A rule gets the derivatives of the arguments it needs and nothing else.
Signs, remainders, minima and maxima have no derivative; the first one met is the fault. -/

namespace SymbolicAlgebra

namespace Derivative

open SymbolicAlgebra.Expr

variable {α : Type} [Scalar α]

/-! ### Rules -/

/-- For each factor, all factors with this one replaced by its derivative. -/
def variations : List (Expr α) → List (Expr α) → List (List (Expr α))
  | f :: fs, d :: ds => (d :: fs) :: (variations fs ds).map (f :: ·)
  | _, _ => []

/-- `(f g h)' = f' g h + f g' h + f g h'`; a constant stays in front of a single function. -/
def ofProduct (factors derivatives : List (Expr α)) : Expr α :=
  match factors, derivatives with
  | [const k, _], [_, d] => buildProduct [const k, d]
  | factors, derivatives => buildSum ((variations factors derivatives).map buildProduct)

/-- `(f / g)' = (f' g - f g') / g ^ 2`. -/
def ofFraction (num dnum den dden : Expr α) : Expr α :=
  fraction
    (buildSum [buildProduct [dnum, den], buildProduct [const Scalar.negOne, num, dden]])
    (power den (const Scalar.two))

/-- `(f ^ k)' = k f' f ^ (k - 1)` for a constant `k`. -/
def ofConstantPower (base dbase : Expr α) (k : α) : Expr α :=
  buildProduct [const k, dbase, power base (const (Scalar.add k Scalar.negOne))]

/-- `(k ^ f)' = k ^ f f' ln k` for a constant `k`, without the logarithm for the natural power. -/
def ofExponential (base exponent dexponent : Expr α) : Expr α :=
  if base.isEuler then buildProduct [power base exponent, dexponent]
  else buildProduct [power base exponent, dexponent, base.ln]

/-- `(f ^ g)' = f ^ g (g' ln f + g f' f ^ -1)`. -/
def ofPower (base dbase exponent dexponent : Expr α) : Expr α :=
  buildProduct
    [power base exponent,
      buildSum
        [buildProduct [dexponent, base.ln], buildProduct [exponent, dbase, base.recip]]]

/-- `(ln f)' = f' f ^ -1`. -/
def ofLn (arg darg : Expr α) : Expr α := buildProduct [darg, arg.recip]

/-- The derivative of a natural logarithm, which is zero for a constant. -/
def ofAnyLn (arg darg : Expr α) : Expr α :=
  if arg.isConst then const Scalar.zero else ofLn arg darg

/-- `(log_k f)' = f' (f ln k) ^ -1` for a constant `k`. -/
def ofConstantLog (base arg darg : Expr α) : Expr α :=
  buildProduct [darg, (buildProduct [arg, base.ln]).recip]

/-- `log_g f = ln f / ln g`. -/
def ofLog (base dbase arg darg : Expr α) : Expr α :=
  ofFraction arg.ln (ofAnyLn arg darg) base.ln (ofLn base dbase)

/-- `1 + s f ^ 2`, for a sign `s`. -/
def onePlusSquare (s : α) (arg : Expr α) : Expr α :=
  buildSum [const Scalar.one, buildProduct [const s, power arg (const Scalar.two)]]

/-- The derivative of a trigonometric function of an argument, by the chain rule. -/
def ofTrig (kind : Trig) (arg darg : Expr α) : Expr α :=
  let minusOne : Expr α := const Scalar.negOne
  let square (t : Trig) : Expr α := power (trig t arg) (const Scalar.two)
  match kind with
  | .sin => buildProduct [darg, trig .cos arg]
  | .cos => buildProduct [minusOne, darg, trig .sin arg]
  | .tan => buildProduct [darg, square .sec]
  | .csc => buildProduct [minusOne, darg, trig .csc arg, trig .cot arg]
  | .sec => buildProduct [darg, trig .sec arg, trig .tan arg]
  | .cot => buildProduct [minusOne, darg, square .csc]
  | .arcsin =>
    buildProduct [darg, power (onePlusSquare Scalar.negOne arg) (const Scalar.negHalf)]
  | .arccos =>
    buildProduct
      [minusOne, darg, power (onePlusSquare Scalar.negOne arg) (const Scalar.negHalf)]
  | .arctan => buildProduct [darg, (onePlusSquare Scalar.one arg).recip]

/-- `|f|' = f / |f| f'`. -/
def ofAbs (arg darg : Expr α) : Expr α :=
  buildProduct [fraction arg (bracket .abs arg), darg]

end Derivative

namespace Expr

variable {α : Type} [Scalar α]

mutual

/-- The derivative of the expression by a variable. -/
def derivative (v : Char) : Expr α → Except Cause (Expr α)
  | const _ => .ok (const Scalar.zero)
  | var name => .ok (const (if name = v then Scalar.one else Scalar.zero))
  | unary (.bracket .floor) _ => .ok (const Scalar.zero)
  | unary (.bracket .ceil) _ => .ok (const Scalar.zero)
  | unary (.bracket .abs) a => do
    let da ← derivative v a
    .ok (Derivative.ofAbs a da)
  | unary (.trig kind) a => do
    let da ← derivative v a
    .ok (Derivative.ofTrig kind a da)
  | unary .sign _ => .error (.undifferentiable "sign")
  | binary .fraction a b => do
    let da ← derivative v a
    let db ← derivative v b
    .ok (Derivative.ofFraction a da b db)
  | binary .power a b =>
    match a.constant?, b.constant? with
    | some _, some _ => .ok (const Scalar.zero)
    | none, some k => do
      let da ← derivative v a
      .ok (Derivative.ofConstantPower a da k)
    | some _, none => do
      let db ← derivative v b
      .ok (Derivative.ofExponential a b db)
    | none, none => do
      let db ← derivative v b
      let da ← derivative v a
      .ok (Derivative.ofPower a da b db)
  | binary .log a b =>
    if a.isConst && b.isConst then .ok (const Scalar.zero)
    else if a.isEuler then do
      let db ← derivative v b
      .ok (Derivative.ofLn b db)
    else if a.isConst then do
      let db ← derivative v b
      .ok (Derivative.ofConstantLog a b db)
    else do
      let db ← derivative v b
      let da ← derivative v a
      .ok (Derivative.ofLog a da b db)
  | binary .mod _ _ => .error (.undifferentiable "mod")
  | nary .sum as => do
    let das ← derivativeList v as
    .ok (buildSum das)
  | nary .product as => do
    let das ← derivativeList v as
    .ok (Derivative.ofProduct as das)
  | nary .min _ => .error (.undifferentiable "min")
  | nary .max _ => .error (.undifferentiable "max")

/-- The derivatives of the expressions by a variable. -/
def derivativeList (v : Char) : List (Expr α) → Except Cause (List (Expr α))
  | [] => .ok []
  | a :: as => do
    let da ← derivative v a
    let das ← derivativeList v as
    .ok (da :: das)

end

end Expr

end SymbolicAlgebra
