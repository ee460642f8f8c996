import SymbolicAlgebra.Double.Dyadic

/-! # The shortest decimal of a double

Among the decimals that read back as a given double, `shortest` picks one with the fewest digits,
of these the nearest, and the upper one of two equally near. A grid of spacing `10 ^ k` has such a
decimal iff one of the value's two neighbours on the grid reads back, so it is enough to look at
those, from one digit to seventeen. -/

namespace SymbolicAlgebra.Double

/-- The number `digits · 10 ^ exponent`. -/
structure Decimal where
  digits : Nat
  exponent : Int
  deriving DecidableEq, Repr

/-- The exponent `e` with `10 ^ e ≤ num / den < 10 ^ (e + 1)`, for positive arguments. -/
def decade (num den : Nat) : Int :=
  let width (n : Nat) := (Nat.toDigits 10 n).length
  if den ≤ num then (width (num / den) : Int) - 1
  else
    let w := width (den / num)
    if den ≤ num * Nat.pow 10 (w - 1) then 1 - (w : Int) else -(w : Int)

/-- The numbers that read back as a positive double, as fractions of one denominator: the value,
the ends of its interval, and whether the ends belong to it. -/
structure Interval where
  value : Nat
  low : Nat
  high : Nat
  den : Nat
  closed : Bool

/-- The interval around `m · 2 ^ q`: half way to either neighbour, where the lower neighbour of a
power of two is twice as near. Ends go to the even mantissa. -/
def Interval.around (m : Nat) (q : Int) : Interval :=
  let below := if m = Dyadic.leadingBit ∧ Dyadic.minExponent < q then 1 else 2
  let scale := 1 <<< (q - 2).toNat
  { value := 4 * m * scale
    low := (4 * m - below) * scale
    high := (4 * m + 2) * scale
    den := 1 <<< (2 - q).toNat
    closed := m % 2 = 0 }

/-- The point of the grid of spacing `10 ^ k` that reads back and is nearest, if there is one. -/
def Interval.onGrid (i : Interval) (k : Int) : Option Nat :=
  let up := Nat.pow 10 (-k).toNat
  let unit := i.den * Nat.pow 10 k.toNat
  let value := i.value * up
  let down := value / unit
  let downFits := if i.closed then i.low * up ≤ down * unit else i.low * up < down * unit
  let upFits :=
    if i.closed then (down + 1) * unit ≤ i.high * up else (down + 1) * unit < i.high * up
  if downFits then
    if upFits then
      if 2 * (value - down * unit) < unit then some down else some (down + 1)
    else some down
  else if upFits then some (down + 1)
  else none

/-- The first hit on the grids of `k`, `k - 1`, and so on, `fuel` grids at most. -/
def Interval.firstHit (i : Interval) (k : Int) : Nat → Decimal
  | 0 => ⟨i.value / i.den, 0⟩
  | fuel + 1 =>
    match i.onGrid k with
    | some digits => ⟨digits, k⟩
    | none => i.firstHit (k - 1) fuel

/-- The shortest decimal of the positive double `m · 2 ^ q`. -/
def shortest (m : Nat) (q : Int) : Decimal :=
  let i := Interval.around m q
  i.firstHit (decade i.value i.den) 17

/-- A decimal without trailing zeros among its digits, at most `fuel` of them dropped. -/
def Decimal.trim (d : Decimal) : Nat → Decimal
  | 0 => d
  | fuel + 1 =>
    if d.digits ≠ 0 ∧ d.digits % 10 = 0 then
      Decimal.trim ⟨d.digits / 10, d.exponent + 1⟩ fuel
    else d

/-- The positional text of a decimal: no exponent, no point in a whole number. -/
def Decimal.text (d : Decimal) : String :=
  let digits := Nat.toDigits 10 d.digits
  let zeros (n : Nat) := List.replicate n '0'
  String.ofList <|
    if 0 ≤ d.exponent then digits ++ zeros d.exponent.toNat
    else
      let places := (-d.exponent).toNat
      if places < digits.length then
        digits.take (digits.length - places) ++ '.' :: digits.drop (digits.length - places)
      else '0' :: '.' :: (zeros (places - digits.length) ++ digits)

/-- The text of a double: its shortest decimal in positional form, with a sign also for negative
zero, or the name of what is not finite. -/
def text (x : Float) : String :=
  match Dyadic.ofFloat? x with
  | some d =>
    let magnitude := if d.mantissa = 0 then "0" else ((shortest d.mantissa d.exponent).trim 17).text
    if d.negative then "-" ++ magnitude else magnitude
  | none => if x.isNaN then "NaN" else if x < 0 then "-inf" else "inf"

end SymbolicAlgebra.Double
