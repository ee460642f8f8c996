import Mathlib
import SymbolicAlgebra.Simplify.Solve

/-! # Exact values

Constants can be read exactly, as rational numbers with the arithmetic of the field of rationals;
`ExactScalar` says which operations that settles. What functions such as the sine do is left open.

A *rational expression* is built from constants, variables, sums, products, fractions and powers
with whole exponents. `Expr.value` reads it in any commutative ring with inverses over the
rationals, so that the same reading serves for numbers and for dual numbers. `Defined ρ e` says that
`e` is a rational expression that has a value at the rational point `ρ`: no denominator in it is
zero, and neither is the base of a power with a negative exponent. `HasValue ρ e x` adds which value
that is. -/

namespace SymbolicAlgebra

/-- Scalars that are the rational numbers with their arithmetic. -/
class ExactScalar extends Scalar ℚ where
  zero_eq : zero = 0
  negZero_eq : negZero = 0
  one_eq : one = 1
  negOne_eq : negOne = -1
  two_eq : two = 2
  add_eq (x y : ℚ) : add x y = x + y
  mul_eq (x y : ℚ) : mul x y = x * y
  div_eq (x y : ℚ) : div x y = x / y
  pow_eq (x : ℚ) (n : ℤ) : pow x n = x ^ n
  eq_eq (x y : ℚ) : eq x y = decide (x = y)
  lt_eq (x y : ℚ) : lt x y = decide (x < y)

attribute [simp] ExactScalar.zero_eq ExactScalar.negZero_eq ExactScalar.one_eq
  ExactScalar.negOne_eq ExactScalar.two_eq ExactScalar.add_eq ExactScalar.mul_eq
  ExactScalar.div_eq ExactScalar.pow_eq ExactScalar.eq_eq ExactScalar.lt_eq

/-- Rational numbers as scalars. Whatever has no rational value is zero here: infinities, irrational
constants, powers with exponents that are not whole, logarithms and trigonometric functions. -/
@[reducible] def rationals : ExactScalar where
  zero := 0
  negZero := 0
  one := 1
  negOne := -1
  two := 2
  half := 1 / 2
  negHalf := -1 / 2
  ten := 10
  thousand := 1000
  infinity := 0
  negInfinity := 0
  pi := 0
  euler := 0
  golden := 0
  add x y := x + y
  mul x y := x * y
  div x y := x / y
  pow x y := if y.den = 1 then x ^ y.num else 0
  rem x y := x - y * (x / y).floor
  floor x := x.floor
  ceil x := x.ceil
  abs x := |x|
  ln _ := 0
  sin _ := 0
  cos _ := 0
  tan _ := 0
  arcsin _ := 0
  arccos _ := 0
  arctan _ := 0
  eq x y := decide (x = y)
  lt x y := decide (x < y)
  isFinite _ := true
  isIntegral x := decide (x.den = 1)
  zero_eq := rfl
  negZero_eq := rfl
  one_eq := rfl
  negOne_eq := rfl
  two_eq := rfl
  add_eq _ _ := rfl
  mul_eq _ _ := rfl
  div_eq _ _ := rfl
  pow_eq x n := by simp
  eq_eq _ _ := rfl
  lt_eq _ _ := rfl

/-! ### The value of an expression -/

/-- A whole power, by repeated multiplication and by inverses. -/
def wholePower {R : Type} [Monoid R] [Inv R] (x : R) : ℤ → R
  | .ofNat n => x ^ n
  | .negSucc n => (x ^ (n + 1))⁻¹

theorem wholePower_eq_zpow (x : ℚ) (n : ℤ) : wholePower x n = x ^ n := by
  cases n with
  | ofNat n => exact (zpow_natCast x n).symm
  | negSucc n => exact (zpow_negSucc x n).symm

namespace Expr

/-- The exponent of a power whose exponent is a whole constant. -/
def wholeExponent : Expr ℚ → ℤ
  | const p => p.num
  | _ => 0

@[simp] theorem wholeExponent_const (n : ℤ) : wholeExponent (const (n : ℚ)) = n :=
  Rat.num_intCast n

section Value
variable {R : Type} [CommRing R] [Algebra ℚ R] [Inv R]

mutual

/-- The value of a rational expression, given the values of the variables. Nodes that a rational
expression does not have count as zero. -/
def value (ρ : Char → R) : Expr ℚ → R
  | const x => algebraMap ℚ R x
  | var c => ρ c
  | fraction a b => value ρ a * (value ρ b)⁻¹
  | power b e => wholePower (value ρ b) (wholeExponent e)
  | sum ts => valueSum ρ ts
  | product fs => valueProduct ρ fs
  | _ => 0

/-- The sum of the values. -/
def valueSum (ρ : Char → R) : List (Expr ℚ) → R
  | [] => 0
  | t :: ts => value ρ t + valueSum ρ ts

/-- The product of the values. -/
def valueProduct (ρ : Char → R) : List (Expr ℚ) → R
  | [] => 1
  | f :: fs => value ρ f * valueProduct ρ fs

end

variable (ρ : Char → R)

theorem valueSum_eq : ∀ ts : List (Expr ℚ), valueSum ρ ts = (ts.map (value ρ)).sum
  | [] => rfl
  | t :: ts => by rw [valueSum, valueSum_eq ts, List.map_cons, List.sum_cons]

theorem valueProduct_eq : ∀ fs : List (Expr ℚ), valueProduct ρ fs = (fs.map (value ρ)).prod
  | [] => rfl
  | f :: fs => by rw [valueProduct, valueProduct_eq fs, List.map_cons, List.prod_cons]

@[simp] theorem value_const (x : ℚ) : value ρ (const x) = algebraMap ℚ R x := by rw [value]

@[simp] theorem value_var (c : Char) : value ρ (var c) = ρ c := by rw [value]

@[simp] theorem value_sum (ts : List (Expr ℚ)) :
    value ρ (sum ts) = (ts.map (value ρ)).sum := by rw [value, valueSum_eq]

@[simp] theorem value_product (fs : List (Expr ℚ)) :
    value ρ (product fs) = (fs.map (value ρ)).prod := by rw [value, valueProduct_eq]

theorem value_fraction (a b : Expr ℚ) :
    value ρ (fraction a b) = value ρ a * (value ρ b)⁻¹ := by rw [value]

theorem value_power (b : Expr ℚ) (n : ℤ) :
    value ρ (power b (const n)) = wholePower (value ρ b) n := by
  rw [value, wholeExponent_const]

end Value

section Rational
variable (ρ : Char → ℚ)

@[simp] theorem value_fraction_rat (a b : Expr ℚ) :
    value ρ (fraction a b) = value ρ a / value ρ b := by rw [value_fraction, div_eq_mul_inv]

@[simp] theorem value_power_rat (b : Expr ℚ) (n : ℤ) :
    value ρ (power b (const n)) = value ρ b ^ n := by rw [value_power, wholePower_eq_zpow]

end Rational

end Expr

/-! ### Where an expression is defined -/

/-- **A rational expression that has a value at `ρ`.** -/
inductive Defined (ρ : Char → ℚ) : Expr ℚ → Prop where
  | const (x : ℚ) : Defined ρ (.const x)
  | var (c : Char) : Defined ρ (.var c)
  | sum {ts : List (Expr ℚ)} (h : ∀ t ∈ ts, Defined ρ t) : Defined ρ (.sum ts)
  | product {fs : List (Expr ℚ)} (h : ∀ f ∈ fs, Defined ρ f) : Defined ρ (.product fs)
  | fraction {a b : Expr ℚ} (ha : Defined ρ a) (hb : Defined ρ b) (h : b.value ρ ≠ 0) :
    Defined ρ (.fraction a b)
  | power {b : Expr ℚ} (n : ℤ) (hb : Defined ρ b) (h : n < 0 → b.value ρ ≠ 0) :
    Defined ρ (.power b (.const n))

/-- A rational expression with the value that it has at `ρ`. -/
structure HasValue (ρ : Char → ℚ) (e : Expr ℚ) (x : ℚ) : Prop where
  isDefined : Defined ρ e
  value_eq : e.value ρ = x

variable {ρ : Char → ℚ}

namespace Defined

theorem hasValue {e : Expr ℚ} (h : Defined ρ e) : HasValue ρ e (e.value ρ) := ⟨h, rfl⟩

theorem of_sum {ts : List (Expr ℚ)} : Defined ρ (.sum ts) → ∀ t ∈ ts, Defined ρ t
  | sum h => h

theorem of_product {fs : List (Expr ℚ)} : Defined ρ (.product fs) → ∀ f ∈ fs, Defined ρ f
  | product h => h

theorem of_fraction {a b : Expr ℚ} :
    Defined ρ (.fraction a b) → Defined ρ a ∧ Defined ρ b ∧ b.value ρ ≠ 0
  | fraction ha hb h => ⟨ha, hb, h⟩

theorem of_power {b e : Expr ℚ} (h : Defined ρ (.power b e)) :
    ∃ n : ℤ, e = .const n ∧ Defined ρ b ∧ (n < 0 → b.value ρ ≠ 0) := by
  cases h with
  | power n hb hn => exact ⟨n, rfl, hb, hn⟩

end Defined

namespace HasValue

theorem const (ρ : Char → ℚ) (x : ℚ) : HasValue ρ (.const x) x := ⟨.const x, by simp⟩

theorem fraction {a b : Expr ℚ} {x y : ℚ} (ha : HasValue ρ a x) (hb : HasValue ρ b y)
    (hy : y ≠ 0) : HasValue ρ (.fraction a b) (x / y) :=
  ⟨.fraction ha.isDefined hb.isDefined (by rwa [hb.value_eq]), by
    rw [Expr.value_fraction_rat, ha.value_eq, hb.value_eq]⟩

theorem of_fraction {a b : Expr ℚ} {z : ℚ} (h : HasValue ρ (.fraction a b) z) :
    ∃ x y, HasValue ρ a x ∧ HasValue ρ b y ∧ y ≠ 0 ∧ z = x / y := by
  obtain ⟨ha, hb, hne⟩ := h.isDefined.of_fraction
  exact ⟨_, _, ha.hasValue, hb.hasValue, hne, by rw [← h.value_eq, Expr.value_fraction_rat]⟩

theorem power {b : Expr ℚ} {x : ℚ} {n : ℤ} (hb : HasValue ρ b x) (hn : n < 0 → x ≠ 0) :
    HasValue ρ (.power b (.const n)) (x ^ n) :=
  ⟨.power n hb.isDefined (by rwa [hb.value_eq]), by rw [Expr.value_power_rat, hb.value_eq]⟩

theorem of_power {b e : Expr ℚ} {y : ℚ} (h : HasValue ρ (.power b e) y) :
    ∃ (n : ℤ) (x : ℚ), e = .const n ∧ HasValue ρ b x ∧ (n < 0 → x ≠ 0) ∧ y = x ^ n := by
  obtain ⟨n, rfl, hb, hn⟩ := h.isDefined.of_power
  exact ⟨n, _, rfl, hb.hasValue, hn, by rw [← h.value_eq, Expr.value_power_rat]⟩

theorem power_one {b : Expr ℚ} {x : ℚ} (h : HasValue ρ b x) :
    HasValue ρ (.power b (.const 1)) x := by
  have := power (n := 1) h (by omega)
  rwa [Int.cast_one, zpow_one] at this

theorem recip [ExactScalar] {b : Expr ℚ} {x : ℚ} (h : HasValue ρ b x) (hx : x ≠ 0) :
    HasValue ρ b.recip x⁻¹ := by
  have := power (n := -1) h fun _ => hx
  rwa [Int.cast_neg, Int.cast_one, ← ExactScalar.negOne_eq, zpow_neg_one] at this

end HasValue

end SymbolicAlgebra
