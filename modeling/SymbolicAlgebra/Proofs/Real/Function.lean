import Mathlib
import SymbolicAlgebra.Function

/-! # Functions of real numbers

The functions of expressions on real numbers, without rounding. Each has a value where the real
function is defined, and none elsewhere: not for the logarithm of a negative number, not for a
quotient by zero, not for a power of a negative number with an exponent that is not whole.

Constants are extended real numbers, the infinities being where minima and maxima start from.
`RealScalar` says that the operations of a scalar are the functions here wherever these have a
value; what the operations do elsewhere is left open. -/

namespace SymbolicAlgebra

/-! ### Powers -/

/-- A power of real numbers. The power of a negative number has a whole exponent, and that of zero
none below zero. -/
noncomputable def realPower? (x y : ℝ) : Option ℝ :=
  if 0 < x then some (x ^ y)
  else if x = 0 then if y = 0 then some 1 else if 0 < y then some 0 else none
  else if (⌊y⌋ : ℝ) = y then some (x ^ ⌊y⌋) else none

theorem realPower?_eq_some_iff {x y z : ℝ} : realPower? x y = some z ↔
    (0 < x ∧ x ^ y = z) ∨ (x = 0 ∧ y = 0 ∧ 1 = z) ∨ (x = 0 ∧ 0 < y ∧ 0 = z) ∨
      (x < 0 ∧ ∃ n : ℤ, y = n ∧ x ^ n = z) := by
  unfold realPower?
  rcases lt_trichotomy x 0 with hneg | rfl | hpos
  · have hwhole : ((⌊y⌋ : ℝ) = y ∧ x ^ ⌊y⌋ = z) ↔ ∃ n : ℤ, y = n ∧ x ^ n = z := by
      constructor
      · exact fun ⟨hy, hz⟩ => ⟨⌊y⌋, hy.symm, hz⟩
      · rintro ⟨n, rfl, hz⟩
        rw [Int.floor_intCast]
        exact ⟨rfl, hz⟩
    simp [hneg, hneg.ne, hneg.not_gt, hwhole]
  · rcases lt_trichotomy y 0 with hy | rfl | hy
    · simp [hy.ne, hy.not_gt]
    · simp
    · simp [hy.ne', hy]
  · simp [hpos, hpos.ne', hpos.not_gt]

theorem realPower?_zero (x : ℝ) : realPower? x 0 = some 1 := by
  rw [realPower?_eq_some_iff]
  rcases lt_trichotomy x 0 with hneg | rfl | hpos
  · exact .inr (.inr (.inr ⟨hneg, 0, by simp, by simp⟩))
  · exact .inr (.inl ⟨rfl, rfl, rfl⟩)
  · exact .inl ⟨hpos, Real.rpow_zero x⟩

theorem realPower?_one (x : ℝ) : realPower? x 1 = some x := by
  rw [realPower?_eq_some_iff]
  rcases lt_trichotomy x 0 with hneg | rfl | hpos
  · exact .inr (.inr (.inr ⟨hneg, 1, by simp, by simp⟩))
  · exact .inr (.inr (.inl ⟨rfl, one_pos, rfl⟩))
  · exact .inl ⟨hpos, Real.rpow_one x⟩

/-- **Exponents of one base add up.** -/
theorem realPower?_add {x y z v w : ℝ} (hy : realPower? x y = some v)
    (hz : realPower? x z = some w) : realPower? x (y + z) = some (v * w) := by
  rw [realPower?_eq_some_iff] at hy hz ⊢
  rcases hy with ⟨hx, rfl⟩ | ⟨rfl, rfl, rfl⟩ | ⟨rfl, hypos, rfl⟩ | ⟨hx, n, rfl, rfl⟩
  · rcases hz with ⟨-, rfl⟩ | ⟨rfl, -⟩ | ⟨rfl, -⟩ | ⟨hneg, -⟩
    · exact .inl ⟨hx, Real.rpow_add hx y z⟩
    · exact absurd hx (lt_irrefl 0)
    · exact absurd hx (lt_irrefl 0)
    · exact absurd hx hneg.not_gt
  · rw [zero_add, one_mul]
    exact hz
  · rw [zero_mul]
    refine .inr (.inr (.inl ⟨rfl, ?_, rfl⟩))
    rcases hz with ⟨hx, -⟩ | ⟨-, rfl, -⟩ | ⟨-, hzpos, -⟩ | ⟨hx, -⟩
    · exact absurd hx (lt_irrefl 0)
    · rwa [add_zero]
    · exact add_pos hypos hzpos
    · exact absurd hx (lt_irrefl 0)
  · rcases hz with ⟨hpos, -⟩ | ⟨rfl, -⟩ | ⟨rfl, -⟩ | ⟨-, m, rfl, rfl⟩
    · exact absurd hx hpos.not_gt
    · exact absurd hx (lt_irrefl 0)
    · exact absurd hx (lt_irrefl 0)
    · exact .inr (.inr (.inr ⟨hx, n + m, by push_cast; rfl, zpow_add₀ hx.ne n m⟩))

/-- A power that is not zero can be inverted. -/
theorem realPower?_neg {x y v : ℝ} (h : realPower? x y = some v) (hv : v ≠ 0) :
    realPower? x (-y) = some v⁻¹ := by
  rw [realPower?_eq_some_iff] at h ⊢
  rcases h with ⟨hx, rfl⟩ | ⟨rfl, rfl, rfl⟩ | ⟨-, -, rfl⟩ | ⟨hx, n, rfl, rfl⟩
  · exact .inl ⟨hx, Real.rpow_neg hx.le y⟩
  · exact .inr (.inl ⟨rfl, neg_zero, inv_one.symm⟩)
  · exact absurd rfl hv
  · exact .inr (.inr (.inr ⟨hx, -n, by push_cast; rfl, zpow_neg x n⟩))

theorem realPower?_int {x z : ℝ} {n : ℤ} :
    realPower? x n = some z ↔ (n < 0 → x ≠ 0) ∧ x ^ n = z := by
  rw [realPower?_eq_some_iff]
  rcases lt_trichotomy x 0 with hneg | rfl | hpos
  · simp [hneg, hneg.ne, hneg.not_gt]
  · rcases lt_trichotomy n 0 with hn | rfl | hn
    · simp [hn.ne, hn.not_gt, hn]
    · simp
    · simp [hn.ne', hn, hn.not_gt, zero_zpow n hn.ne']
  · simp [hpos, hpos.ne', hpos.not_gt]

/-- **A whole power of a power** is a power with the product of the exponents. -/
theorem realPower?_mul {x y v w : ℝ} {n : ℤ} (hv : realPower? x y = some v)
    (hw : realPower? v n = some w) : realPower? x (n * y) = some w := by
  obtain ⟨hn, rfl⟩ := realPower?_int.mp hw
  rw [realPower?_eq_some_iff] at hv
  rcases hv with ⟨hx, rfl⟩ | ⟨rfl, rfl, rfl⟩ | ⟨rfl, hy, rfl⟩ | ⟨hx, m, rfl, rfl⟩
  · rw [realPower?_eq_some_iff]
    refine .inl ⟨hx, ?_⟩
    rw [mul_comm, Real.rpow_mul hx.le, Real.rpow_intCast]
  · rw [mul_zero, one_zpow]
    exact realPower?_zero 0
  · rcases lt_trichotomy n 0 with hneg | rfl | hpos
    · exact absurd rfl (hn hneg)
    · rw [Int.cast_zero, zero_mul, zpow_zero]
      exact realPower?_zero 0
    · rw [realPower?_eq_some_iff, zero_zpow n hpos.ne']
      exact .inr (.inr (.inl ⟨rfl, mul_pos (by exact_mod_cast hpos) hy, rfl⟩))
  · rw [← Int.cast_mul, realPower?_int, mul_comm, zpow_mul]
    exact ⟨fun _ => hx.ne, rfl⟩

theorem realPower?_ne_zero {x y v : ℝ} (hx : x ≠ 0) (h : realPower? x y = some v) : v ≠ 0 := by
  rw [realPower?_eq_some_iff] at h
  rcases h with ⟨hpos, rfl⟩ | ⟨rfl, -⟩ | ⟨rfl, -⟩ | ⟨hneg, n, -, rfl⟩
  · exact (Real.rpow_pos_of_pos hpos y).ne'
  · exact absurd rfl hx
  · exact absurd rfl hx
  · exact zpow_ne_zero n hx

/-! ### Functions -/

/-- The quotient rounded towards zero. -/
noncomputable def truncate (x : ℝ) : ℤ := if 0 ≤ x then ⌊x⌋ else ⌈x⌉

/-- The value of the function, where it is defined. -/
noncomputable def Bracket.real (kind : Bracket) (x : ℝ) : ℝ :=
  match kind with
  | .floor => ⌊x⌋
  | .ceil => ⌈x⌉
  | .abs => |x|

/-- The value of the function, where it is defined. -/
noncomputable def Trig.real? (kind : Trig) (x : ℝ) : Option ℝ :=
  match kind with
  | .sin => some (Real.sin x)
  | .cos => some (Real.cos x)
  | .tan => if Real.cos x = 0 then none else some (Real.tan x)
  | .csc => if Real.sin x = 0 then none else some (1 / Real.sin x)
  | .sec => if Real.cos x = 0 then none else some (1 / Real.cos x)
  | .cot => if Real.cos x = 0 ∨ Real.tan x = 0 then none else some (1 / Real.tan x)
  | .arcsin => if -1 ≤ x ∧ x ≤ 1 then some (Real.arcsin x) else none
  | .arccos => if -1 ≤ x ∧ x ≤ 1 then some (Real.arccos x) else none
  | .arctan => some (Real.arctan x)

/-- The value of the function, where it is defined. -/
noncomputable def Unary.real? : Unary → ℝ → Option ℝ
  | .bracket kind, x => some (kind.real x)
  | .trig kind, x => kind.real? x
  | .sign, x => some (Real.sign x)

/-- The value of the function, where it is defined. -/
noncomputable def Binary.real? : Binary → ℝ → ℝ → Option ℝ
  | .fraction, x, y => if y = 0 then none else some (x / y)
  | .power, x, y => realPower? x y
  | .log, b, x => if 0 < b ∧ b ≠ 1 ∧ 0 < x then some (Real.log x / Real.log b) else none
  | .mod, x, y => if y = 0 then none else some (x - y * truncate (x / y))

/-- The value of the function, where it is defined. -/
noncomputable def Nary.real? : Nary → List ℝ → Option ℝ
  | .sum, xs => some xs.sum
  | .product, xs => some xs.prod
  | .min, xs => xs.min?
  | .max, xs => xs.max?

/-! ### Scalars -/

/-- Scalars that are extended real numbers and compute with real numbers exactly, wherever the
functions of real numbers have a value. -/
class RealScalar extends Scalar EReal where
  zero_eq : zero = (0 : ℝ)
  negZero_eq : negZero = (0 : ℝ)
  one_eq : one = (1 : ℝ)
  negOne_eq : negOne = (-1 : ℝ)
  infinity_eq : infinity = ⊤
  negInfinity_eq : negInfinity = ⊥
  add_eq (x y : ℝ) : add x y = (x + y : ℝ)
  mul_eq (x y : ℝ) : mul x y = (x * y : ℝ)
  div_eq (x : ℝ) {y : ℝ} : y ≠ 0 → div x y = (x / y : ℝ)
  pow_eq {x y z : ℝ} : realPower? x y = some z → pow x y = z
  rem_eq (x : ℝ) {y : ℝ} : y ≠ 0 → rem x y = (x - y * truncate (x / y) : ℝ)
  floor_eq (x : ℝ) : floor x = (⌊x⌋ : ℝ)
  ceil_eq (x : ℝ) : ceil x = (⌈x⌉ : ℝ)
  abs_eq (x : ℝ) : abs x = (|x| : ℝ)
  ln_eq {x : ℝ} : 0 < x → ln x = Real.log x
  sin_eq (x : ℝ) : sin x = Real.sin x
  cos_eq (x : ℝ) : cos x = Real.cos x
  tan_eq {x : ℝ} : Real.cos x ≠ 0 → tan x = Real.tan x
  arcsin_eq {x : ℝ} : -1 ≤ x ∧ x ≤ 1 → arcsin x = Real.arcsin x
  arccos_eq {x : ℝ} : -1 ≤ x ∧ x ≤ 1 → arccos x = Real.arccos x
  arctan_eq (x : ℝ) : arctan x = Real.arctan x
  eq_eq (x y : EReal) : eq x y = decide (x = y)
  lt_eq (x y : EReal) : lt x y = decide (x < y)

namespace RealScalar

variable [RealScalar]

theorem isNaN_eq (x : EReal) : Scalar.isNaN x = false := by
  rw [Scalar.isNaN, eq_eq]
  simp

theorem same_iff {x y : EReal} : Scalar.same x y = true ↔ x = y := by
  simp [Scalar.same, eq_eq, isNaN_eq]

theorem recip_eq {x : ℝ} (hx : x ≠ 0) : Scalar.recip (x : EReal) = (1 / x : ℝ) := by
  rw [Scalar.recip, one_eq, div_eq 1 hx]

theorem sign_eq (x : ℝ) : Scalar.sign (x : EReal) = Real.sign x := by
  rw [Scalar.sign, isNaN_eq, eq_eq, lt_eq, zero_eq, negOne_eq, one_eq]
  rcases lt_trichotomy x 0 with hneg | rfl | hpos
  · simp [Real.sign_of_neg hneg, hneg, hneg.ne]
  · simp
  · simp [Real.sign_of_pos hpos, hpos.ne', hpos.not_gt]

end RealScalar

section Scalars

variable [RealScalar]

theorem Trig.apply_real {kind : Trig} {x y : ℝ} (h : kind.real? x = some y) :
    kind.apply (x : EReal) = y := by
  cases kind <;> simp only [Trig.real?, Option.ite_none_left_eq_some,
    Option.ite_none_right_eq_some, Option.some.injEq] at h
  case sin => rw [← h, Trig.apply, RealScalar.sin_eq]
  case cos => rw [← h, Trig.apply, RealScalar.cos_eq]
  case tan => rw [← h.2, Trig.apply, RealScalar.tan_eq h.1]
  case csc => simp only [← h.2, Trig.apply, RealScalar.sin_eq, RealScalar.recip_eq h.1]
  case sec => simp only [← h.2, Trig.apply, RealScalar.cos_eq, RealScalar.recip_eq h.1]
  case cot =>
    obtain ⟨hcos, htan⟩ := not_or.mp h.1
    simp only [← h.2, Trig.apply, RealScalar.tan_eq hcos, RealScalar.recip_eq htan]
  case arcsin => rw [← h.2, Trig.apply, RealScalar.arcsin_eq h.1]
  case arccos => rw [← h.2, Trig.apply, RealScalar.arccos_eq h.1]
  case arctan => rw [← h, Trig.apply, RealScalar.arctan_eq]

/-- **Functions of one number** compute exactly. -/
theorem Unary.apply_real {f : Unary} {x y : ℝ} (h : f.real? x = some y) :
    f.apply (x : EReal) = y := by
  match f with
  | .bracket .floor =>
    rw [← Option.some.inj h]
    exact RealScalar.floor_eq x
  | .bracket .ceil =>
    rw [← Option.some.inj h]
    exact RealScalar.ceil_eq x
  | .bracket .abs =>
    rw [← Option.some.inj h]
    exact RealScalar.abs_eq x
  | .sign =>
    rw [← Option.some.inj h]
    exact RealScalar.sign_eq x
  | .trig kind => exact Trig.apply_real h

/-- **Functions of two numbers** compute exactly. -/
theorem Binary.apply_real {f : Binary} {x y z : ℝ} (h : f.real? x y = some z) :
    f.apply (x : EReal) y = z := by
  cases f <;> simp only [Binary.real?, Option.ite_none_left_eq_some,
    Option.ite_none_right_eq_some, Option.some.injEq] at h
  case fraction => rw [← h.2, Binary.apply, RealScalar.div_eq x h.1]
  case power => exact RealScalar.pow_eq h
  case log =>
    obtain ⟨⟨hx, hx1, hy⟩, rfl⟩ := h
    rw [Binary.apply, Scalar.log, RealScalar.ln_eq hx, RealScalar.ln_eq hy,
      RealScalar.div_eq _ (Real.log_ne_zero_of_pos_of_ne_one hx hx1)]
  case mod => rw [← h.2, Binary.apply, RealScalar.rem_eq x h.1]

/-! ### Functions of any number of numbers -/

theorem smaller_real (x y : ℝ) : Scalar.smaller (x : EReal) y = (min x y : ℝ) := by
  rw [Scalar.smaller, RealScalar.isNaN_eq, RealScalar.isNaN_eq, RealScalar.lt_eq]
  rcases lt_or_ge y x with h | h
  · simp [h, h.le]
  · simp [h, h.not_gt]

theorem larger_real (x y : ℝ) : Scalar.larger (x : EReal) y = (max x y : ℝ) := by
  rw [Scalar.larger, RealScalar.isNaN_eq, RealScalar.isNaN_eq, RealScalar.lt_eq]
  rcases lt_or_ge x y with h | h
  · simp [h, h.le]
  · simp [h, h.not_gt]

omit [RealScalar] in
/-- Numbers are folded as real numbers are, if one operation is the other on real numbers. -/
theorem foldl_real {op : EReal → EReal → EReal} {f : ℝ → ℝ → ℝ}
    (h : ∀ x y : ℝ, op x y = (f x y : ℝ)) : ∀ (xs : List ℝ) (x : ℝ),
      (xs.map Real.toEReal).foldl op x = (xs.foldl f x : ℝ)
  | [], _ => rfl
  | y :: ys, x => by
    rw [List.map_cons, List.foldl_cons, List.foldl_cons, h]
    exact foldl_real h ys (f x y)

theorem smaller_infinity (x : ℝ) : Scalar.smaller Scalar.infinity (x : EReal) = x := by
  rw [Scalar.smaller, RealScalar.isNaN_eq, RealScalar.isNaN_eq, RealScalar.lt_eq,
    RealScalar.infinity_eq]
  simp

theorem larger_negInfinity (x : ℝ) : Scalar.larger Scalar.negInfinity (x : EReal) = x := by
  rw [Scalar.larger, RealScalar.isNaN_eq, RealScalar.isNaN_eq, RealScalar.lt_eq,
    RealScalar.negInfinity_eq]
  simp

/-- **Functions of any number of numbers** compute exactly. -/
theorem Nary.apply_real {f : Nary} {xs : List ℝ} {y : ℝ} (h : f.real? xs = some y) :
    f.apply (xs.map Real.toEReal) = y := by
  match f with
  | .sum =>
    rw [← Option.some.inj h, Nary.apply, Scalar.sum, RealScalar.negZero_eq,
      foldl_real RealScalar.add_eq, List.sum_eq_foldl]
  | .product =>
    rw [← Option.some.inj h, Nary.apply, Scalar.product, RealScalar.one_eq,
      foldl_real RealScalar.mul_eq, List.prod_eq_foldl]
  | .min =>
    cases xs with
    | nil => cases h
    | cons x xs =>
      rw [Nary.real?, List.min?_cons', Option.some.injEq] at h
      rw [Nary.apply, Scalar.minimum, List.map_cons, List.foldl_cons, smaller_infinity,
        foldl_real smaller_real, h]
  | .max =>
    cases xs with
    | nil => cases h
    | cons x xs =>
      rw [Nary.real?, List.max?_cons', Option.some.injEq] at h
      rw [Nary.apply, Scalar.maximum, List.map_cons, List.foldl_cons, larger_negInfinity,
        foldl_real larger_real, h]

end Scalars

/-- Extended real numbers as scalars. What a function of real numbers gives is extended to the
infinities in any way, and so are the functions where they have no value. -/
@[reducible] noncomputable def extendedReals : RealScalar where
  zero := (0 : ℝ)
  negZero := (0 : ℝ)
  one := (1 : ℝ)
  negOne := (-1 : ℝ)
  two := (2 : ℝ)
  half := (1 / 2 : ℝ)
  negHalf := (-1 / 2 : ℝ)
  ten := (10 : ℝ)
  thousand := (1000 : ℝ)
  infinity := ⊤
  negInfinity := ⊥
  pi := Real.pi
  euler := Real.exp 1
  golden := Real.goldenRatio
  add x y := x + y
  mul x y := x * y
  div x y := (x.toReal / y.toReal : ℝ)
  pow x y := ((realPower? x.toReal y.toReal).getD 0 : ℝ)
  rem x y := (x.toReal - y.toReal * truncate (x.toReal / y.toReal) : ℝ)
  floor x := (⌊x.toReal⌋ : ℝ)
  ceil x := (⌈x.toReal⌉ : ℝ)
  abs x := (|x.toReal| : ℝ)
  ln x := Real.log x.toReal
  sin x := Real.sin x.toReal
  cos x := Real.cos x.toReal
  tan x := Real.tan x.toReal
  arcsin x := Real.arcsin x.toReal
  arccos x := Real.arccos x.toReal
  arctan x := Real.arctan x.toReal
  eq x y := decide (x = y)
  lt x y := decide (x < y)
  isFinite x := decide (x ≠ ⊤ ∧ x ≠ ⊥)
  isIntegral x := decide (x = (⌊x.toReal⌋ : ℝ))
  zero_eq := rfl
  negZero_eq := rfl
  one_eq := rfl
  negOne_eq := rfl
  infinity_eq := rfl
  negInfinity_eq := rfl
  add_eq _ _ := rfl
  mul_eq _ _ := rfl
  div_eq _ _ _ := rfl
  pow_eq h := by simp [h]
  rem_eq _ _ _ := rfl
  floor_eq _ := rfl
  ceil_eq _ := rfl
  abs_eq _ := rfl
  ln_eq _ := rfl
  sin_eq _ := rfl
  cos_eq _ := rfl
  tan_eq _ := rfl
  arcsin_eq _ := rfl
  arccos_eq _ := rfl
  arctan_eq _ := rfl
  eq_eq _ _ := rfl
  lt_eq _ _ := rfl

end SymbolicAlgebra
