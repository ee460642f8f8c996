/-! # Doubles as dyadic numbers

A finite double is `± m · 2 ^ q` with natural `m` and integer `q`. This module reads `m` and `q` off
the bits and writes them back, which makes whole-number tests and remainders exact. -/

namespace SymbolicAlgebra.Double

/-- The number `± mantissa · 2 ^ exponent`. -/
structure Dyadic where
  negative : Bool
  mantissa : Nat
  exponent : Int
  deriving DecidableEq, Repr

namespace Dyadic

/-- The exponent of the subnormal doubles, the smallest there is. -/
def minExponent : Int := -1074

/-- The leading bit of a full mantissa, which the bits of a double leave out. -/
def leadingBit : Nat := 1 <<< 52

/-- The dyadic number of a finite double. -/
def ofFloat? (x : Float) : Option Dyadic :=
  let bits := x.toBits.toNat
  let negative := bits >>> 63 == 1
  let biased : Nat := (bits >>> 52) % 2048
  let fraction : Nat := bits % leadingBit
  if biased = 2047 then none
  else if biased = 0 then some ⟨negative, fraction, minExponent⟩
  else some ⟨negative, leadingBit + fraction, (biased : Int) - 1075⟩

/-- The exponent at which the mantissa fills the 53 bits of a double, or the smallest one. -/
def storedExponent (d : Dyadic) : Int :=
  max (d.exponent + (d.mantissa.log2 : Int) - 52) minExponent

/-- The mantissa at the stored exponent; exact if the number is a double. -/
def storedMantissa (d : Dyadic) : Nat :=
  let shift := d.storedExponent - d.exponent
  if 0 ≤ shift then d.mantissa >>> shift.toNat else d.mantissa <<< (-shift).toNat

/-- The double of a dyadic number that is one. -/
def toFloat (d : Dyadic) : Float :=
  let sign := if d.negative then 1 <<< 63 else 0
  let m := d.storedMantissa
  let magnitude :=
    if d.mantissa = 0 then 0
    else if m < leadingBit then m
    else ((d.storedExponent + 1075).toNat <<< 52) + (m - leadingBit)
  Float.ofBits (UInt64.ofNat (sign + magnitude))

/-- Whether the number is whole. -/
def isIntegral (d : Dyadic) : Bool :=
  if 0 ≤ d.exponent then true else d.mantissa % (1 <<< (-d.exponent).toNat) == 0

/-- The remainder of truncated division, with the sign of the dividend. -/
def rem (a b : Dyadic) : Dyadic :=
  let q := min a.exponent b.exponent
  let m := a.mantissa <<< (a.exponent - q).toNat
  let n := b.mantissa <<< (b.exponent - q).toNat
  ⟨a.negative, m % n, q⟩

end Dyadic

/-- Whether a double is a whole number; infinities are not. -/
def isIntegral (x : Float) : Bool :=
  match Dyadic.ofFloat? x with
  | some d => d.isIntegral
  | none => false

/-- The remainder of truncated division. There is none of an infinity or by zero, and a finite
number is its own remainder by an infinity. -/
def rem (x y : Float) : Float :=
  match Dyadic.ofFloat? x, Dyadic.ofFloat? y with
  | some a, some b => if b.mantissa = 0 then 0.0 / 0.0 else (a.rem b).toFloat
  | some _, none => if y.isNaN then y else x
  | none, _ => 0.0 / 0.0

end SymbolicAlgebra.Double
