/-! # Reading doubles

A literal is an optional sign followed by `inf`, `infinity` or `nan` in any case, or by digits with
at most one point and at least one digit, and then optionally an exponent. Its value is rounded to
the nearest double. -/

namespace SymbolicAlgebra.Double

/-- The value of a list of decimal digits. -/
def digitsValue (digits : List Char) : Nat :=
  digits.foldl (fun n c => 10 * n + (c.toNat - '0'.toNat)) 0

/-- The value of the digits of an exponent. Once it has reached `2 ^ 16`, further digits are not
looked at: with fewer digits than that before it, the number is zero or infinite already. -/
def exponentValue (digits : List Char) : Nat :=
  digits.foldl (fun n c => if n < 65536 then 10 * n + (c.toNat - '0'.toNat) else n) 0

/-- The double nearest to a whole number, given by its digits, times `10 ^ e`. What is far outside
the range of doubles gives zero or infinity at once. -/
def ofDigits (digits : List Char) (e : Int) : Float :=
  let significant := digits.dropWhile (· == '0')
  let magnitude := e + significant.length
  if significant.isEmpty then 0.0
  else if 310 < magnitude then 1.0 / 0.0
  else if magnitude < -330 then 0.0
  else if 0 ≤ e then Float.ofScientific (digitsValue significant) false e.toNat
  else Float.ofScientific (digitsValue significant) true (-e).toNat

/-- An exponent: nothing, or `e` with an optional sign and digits. -/
def readExponent : List Char → Option Int
  | [] => some 0
  | c :: cs =>
    let (negative, digits) :=
      match cs with
      | '-' :: ds => (true, ds)
      | '+' :: ds => (false, ds)
      | ds => (false, ds)
    if (c == 'e' || c == 'E') && !digits.isEmpty && digits.all Char.isDigit then
      some (if negative then -(exponentValue digits : Int) else exponentValue digits)
    else none

/-- A number without a sign. -/
def readUnsigned (cs : List Char) : Option Float :=
  let name := cs.map Char.toLower
  if name == "inf".toList || name == "infinity".toList then some (1.0 / 0.0)
  else if name == "nan".toList then some (0.0 / 0.0)
  else
    let whole := cs.takeWhile Char.isDigit
    let rest := cs.dropWhile Char.isDigit
    let (places, rest) :=
      match rest with
      | '.' :: ds => (ds.takeWhile Char.isDigit, ds.dropWhile Char.isDigit)
      | ds => ([], ds)
    if whole.isEmpty && places.isEmpty then none
    else
      (readExponent rest).map fun e => ofDigits (whole ++ places) (e - places.length)

/-- The double that a text spells, if it spells one. -/
def read : List Char → Option Float
  | '-' :: cs => (readUnsigned cs).map Float.neg
  | '+' :: cs => readUnsigned cs
  | cs => readUnsigned cs

end SymbolicAlgebra.Double
