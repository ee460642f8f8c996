import SymbolicAlgebra.Proofs.Double.Units

/-! # Laws of folding

What folding and evaluation have in common rests on how zeros and ones behave: zeros may be dropped
from sums and ones from products, a power to the zeroth is one and to the first its base, and the
logarithm of one is zero. Doubles obey these laws if their platform computes powers and logarithms
as documented (`Platform.Documented`). -/

namespace SymbolicAlgebra

/-- Numbers whose zeros and ones are units of their operations. -/
class UnitalScalar (α : Type) [Scalar α] : Prop extends OrderedScalar α where
  add {x y x' y' : α} : Scalar.Same x x' → Scalar.Same y y' →
    Scalar.Same (Scalar.add x y) (Scalar.add x' y')
  mul {x y x' y' : α} : Scalar.Same x x' → Scalar.Same y y' →
    Scalar.Same (Scalar.mul x y) (Scalar.mul x' y')
  zero_eq_zero : Scalar.eq (Scalar.zero : α) Scalar.zero = true
  negZero_eq_zero : Scalar.eq (Scalar.negZero : α) Scalar.zero = true
  one_eq_one : Scalar.eq (Scalar.one : α) Scalar.one = true
  negOne_lt_zero : Scalar.lt (Scalar.negOne : α) Scalar.zero = true
  zero_add {z : α} : Scalar.eq z Scalar.zero = true → ∀ x, Scalar.Same (Scalar.add z x) x
  add_zero {z : α} : Scalar.eq z Scalar.zero = true → ∀ x, Scalar.Same (Scalar.add x z) x
  one_mul {u : α} : Scalar.eq u Scalar.one = true → ∀ x, Scalar.Same (Scalar.mul u x) x
  mul_one {u : α} : Scalar.eq u Scalar.one = true → ∀ x, Scalar.Same (Scalar.mul x u) x
  zero_mul {z : α} : Scalar.eq z Scalar.zero = true → ∀ x,
    Scalar.eq (Scalar.mul z x) Scalar.zero = true ∨ Scalar.isNaN (Scalar.mul z x) = true
  mul_zero {z : α} : Scalar.eq z Scalar.zero = true → ∀ x,
    Scalar.eq (Scalar.mul x z) Scalar.zero = true ∨ Scalar.isNaN (Scalar.mul x z) = true
  isNaN_mul {x : α} : Scalar.isNaN x = true → ∀ y, Scalar.isNaN (Scalar.mul x y) = true
  pow_zero {z : α} : Scalar.eq z Scalar.zero = true → ∀ x,
    Scalar.Same (Scalar.pow x z) Scalar.one
  pow_one {u : α} : Scalar.eq u Scalar.one = true → ∀ x, Scalar.Same (Scalar.pow x u) x
  ln_one {u : α} : Scalar.eq u Scalar.one = true → Scalar.eq (Scalar.ln u) Scalar.zero = true
  div_self {x y : α} : Scalar.Same x y → Scalar.isFinite y = true →
    Scalar.eq y Scalar.zero = false → Scalar.Same (Scalar.div x y) Scalar.one
  zero_div {z x : α} : Scalar.eq z Scalar.zero = true → Scalar.isNaN x = false →
    Scalar.eq x Scalar.zero = false → Scalar.Same (Scalar.div z x) Scalar.zero
  ln {x y : α} : Scalar.Same x y → Scalar.Same (Scalar.ln x) (Scalar.ln y)

namespace Double.Platform

/-- **A platform with powers and logarithms as documented**: anything to the zeroth is one, also
what is not a number, and to the first itself; the logarithm of one is zero, and that of zero does
not depend on its sign. -/
structure Documented (p : Platform) : Prop where
  pow_zero (x : Float) (s : Float.Model.UnpackedFloat.Sign) : p.pow x (signedZero s) = 1
  pow_one (x : Float) : p.pow x 1 = x
  ln_one : p.ln 1 = 0
  ln_zero (s s' : Float.Model.UnpackedFloat.Sign) :
    Scalar.Same (p.ln (signedZero s)) (p.ln (signedZero s'))

namespace Documented

variable {p : Platform} (hp : p.Documented)
include hp

theorem pow_zero_same {z : Float} (hz : Scalar.eq z Scalar.zero = true) (x : Float) :
    Scalar.Same (p.pow x z) 1 := by
  obtain ⟨s, rfl⟩ := eq_signedZero hz
  rw [hp.pow_zero]
  exact .refl 1

theorem pow_one_same {u : Float} (hu : Scalar.eq u Scalar.one = true) (x : Float) :
    Scalar.Same (p.pow x u) x := by
  rw [eq_one hu, hp.pow_one]
  exact .refl x

theorem ln_one_eq {u : Float} (hu : Scalar.eq u Scalar.one = true) :
    Scalar.eq (p.ln u) Scalar.zero = true := by
  rw [eq_one hu, hp.ln_one]
  exact zero_eq_zero

theorem ln_same {x y : Float} (h : Scalar.Same x y) : Scalar.Same (p.ln x) (p.ln y) := by
  rcases eq_or_zeros h with rfl | ⟨s, s', rfl, rfl⟩
  · exact .refl _
  · exact hp.ln_zero s s'

end Documented

/-- **Doubles obey the laws of folding.** -/
theorem Documented.unitalScalar {p : Platform} (hp : p.Documented) : UnitalScalar p.Number where
  add := add_same
  mul := mul_same
  zero_eq_zero := (number_eq p _ _).trans zero_eq_zero
  negZero_eq_zero := (number_eq p _ _).trans negZero_eq_zero
  one_eq_one := (number_eq p _ _).trans one_eq_one
  negOne_lt_zero := (number_lt p _ _).trans negOne_lt_zero
  zero_add := zero_add_same
  add_zero := add_zero_same
  one_mul := one_mul_same
  mul_one := mul_one_same
  zero_mul := zero_mul_cases
  mul_zero := mul_zero_cases
  isNaN_mul := isNaN_mul
  pow_zero h x := (number_same p _ _).mpr (hp.pow_zero_same h x)
  pow_one h x := (number_same p _ _).mpr (hp.pow_one_same h x)
  ln_one h := (number_eq p _ _).trans (hp.ln_one_eq h)
  div_self := div_self_same
  zero_div := zero_div_same
  ln h := (number_same p _ _).mpr (hp.ln_same h)

end Double.Platform

end SymbolicAlgebra
