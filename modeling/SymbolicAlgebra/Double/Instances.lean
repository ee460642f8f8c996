import SymbolicAlgebra.Double.Literal
import SymbolicAlgebra.Double.Shortest
import SymbolicAlgebra.Scalar

/-! # Doubles as scalars

Expressions run on doubles. The arithmetic is that of the standard, transcendental functions are
those of the platform, and remainders and the test for whole numbers are exact. -/

namespace SymbolicAlgebra.Double

instance : Scalar Float where
  zero := 0.0
  negZero := -0.0
  one := 1.0
  negOne := -1.0
  two := 2.0
  half := 0.5
  negHalf := -0.5
  ten := 10.0
  thousand := 1000.0
  infinity := 1.0 / 0.0
  negInfinity := -1.0 / 0.0
  pi := 3.141592653589793
  euler := 2.718281828459045
  golden := 1.618033988749895
  add := Float.add
  mul := Float.mul
  div := Float.div
  pow := Float.pow
  rem := rem
  floor := Float.floor
  ceil := Float.ceil
  abs := Float.abs
  ln := Float.log
  sin := Float.sin
  cos := Float.cos
  tan := Float.tan
  arcsin := Float.asin
  arccos := Float.acos
  arctan := Float.atan
  eq := Float.beq
  lt x y := decide (x < y)
  isFinite := Float.isFinite
  isIntegral := isIntegral

instance : Numeral Float where
  read := read
  text := text

end SymbolicAlgebra.Double
