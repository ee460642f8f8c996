import SymbolicAlgebra.Proofs.Double.Congruence

/-! # Units of double arithmetic

Zeros can be added and ones multiplied without changing a double, a double that is finite and not
zero goes into itself once, and a zero times anything is a zero or not a number. A product with one
has the mantissa of the other factor and 52 zero bits behind it, and rounding shifts these out
again, because the parts of a double have the exponent that rounding aims at. -/

namespace SymbolicAlgebra.Double

open Float.Model (UnpackedFloat Format totalExponent)
open Float.Model.UnpackedFloat (Sign ExtendedMantissa roundWithAccuracy shiftToTargetExponent
  shiftToExponent)

/-! ### Rounding -/

/-- The exponent is the one that rounding gives to the number. -/
def IsCanonical (m : Nat) (e : Int) : Prop :=
  Format.binary64.targetExponent (totalExponent m e) = e

theorem log2_mul_two_pow {m : Nat} (hm : 0 < m) (k : Nat) : (m * 2 ^ k).log2 = m.log2 + k := by
  induction k with
  | zero => simp
  | succ k ih =>
    have hpos : m * 2 ^ k ≠ 0 := (Nat.mul_pos hm (Nat.two_pow_pos k)).ne'
    rw [pow_succ, ← mul_assoc, Nat.mul_comm _ 2, Nat.log2_two_mul hpos, ih, Nat.add_assoc]

theorem totalExponent_shift {m : Nat} (hm : 0 < m) (e : Int) (k : Nat) :
    totalExponent (m * 2 ^ k) (e - k) = totalExponent m e := by
  rw [totalExponent, totalExponent, log2_mul_two_pow hm]
  push_cast
  ring

/-- Zero bits are shifted out without a trace. -/
theorem shiftRight_exact (m k : Nat) :
    ExtendedMantissa.ofMantissaAndAccuracy (m * 2 ^ k) .exact >>> k = ⟨m, false, false⟩ := by
  induction k generalizing m with
  | zero => rw [pow_zero, mul_one]; rfl
  | succ k ih =>
    have hprevious := ih (m * 2)
    rw [mul_assoc, ← pow_succ'] at hprevious
    show ExtendedMantissa.shiftRightOne
      (ExtendedMantissa.ofMantissaAndAccuracy (m * 2 ^ (k + 1)) .exact >>> k) = _
    rw [hprevious]
    simp [ExtendedMantissa.shiftRightOne]

theorem shiftToTarget_exact {m : Nat} {e : Int} (hm : 0 < m) (h : IsCanonical m e) (k : Nat) :
    shiftToTargetExponent Format.binary64 (m * 2 ^ k) (e - k) .exact =
      (⟨m, false, false⟩, e) := by
  rw [shiftToTargetExponent, totalExponent_shift hm, h, shiftToExponent, Int.sub_sub_self,
    Int.toNat_natCast, shiftRight_exact, Int.sub_add_cancel]

/-- **Rounding finds the canonical form** of a number that has one. -/
theorem round_exact {m : Nat} {e : Int} (s : Sign) (hm : 0 < m) (h : IsCanonical m e) (k : Nat) :
    roundWithAccuracy Format.binary64 s (m * 2 ^ k) (e - k) .exact = .finite s m e hm := by
  have hagain := shiftToTarget_exact hm h 0
  rw [pow_zero, mul_one, Nat.cast_zero, sub_zero] at hagain
  have hrounded : (⟨m, false, false⟩ : ExtendedMantissa).roundedMantissa = m := rfl
  unfold roundWithAccuracy
  simp only [shiftToTarget_exact hm h k, hrounded, hagain]
  exact dif_neg hm.ne'

theorem isCanonical_ofFields {s s' : Sign} {e : BitVec 11} {m : BitVec 52} {n : Nat} {q : Int}
    {hn : 0 < n} (h : ofFields s e m = .finite s' n q hn) : IsCanonical n q := by
  rw [ofFields] at h
  split_ifs at h with hall hzero hempty hnone
  · injection h with _ hm he
    subst hm he
    have hlog : m.toNat.log2 < 52 := (Nat.log2_lt hn.ne').mpr m.isLt
    rw [IsCanonical, Format.targetExponent, totalExponent]
    refine max_eq_right ?_
    show (m.toNat.log2 + 1 + Dyadic.minExponent - 53 : Int) ≤ Dyadic.minExponent
    omega
  · injection h with _ hm he
    subst hm he
    have hlog : (Dyadic.leadingBit + m.toNat).log2 = 52 := by
      rw [Nat.log2_eq_iff hn.ne']
      have hlt : m.toNat < 2 ^ 52 := m.isLt
      constructor
      · exact Nat.le_add_right _ _
      · show 2 ^ 52 + m.toNat < 2 ^ 53
        omega
    have hpos : 0 < e.toNat := Nat.pos_of_ne_zero fun h0 => hempty (BitVec.eq_of_toNat_eq h0)
    rw [IsCanonical, Format.targetExponent, totalExponent, hlog]
    refine (max_eq_left ?_).trans ?_
    · show (-1074 : Int) ≤ 52 + 1 + ((e.toNat : Int) - 1075) - 53
      omega
    · show (52 + 1 + ((e.toNat : Int) - 1075) - 53 : Int) = _
      omega

/-- **The parts of a double are canonical.** -/
theorem isCanonical_parts {x : Float} {s : Sign} {m : Nat} {e : Int} {hm : 0 < m}
    (h : parts x = .finite s m e hm) : IsCanonical m e := by
  have hfields : parts x =
      ofFields (signOf (bits x)) (UnpackedFloat.unpackExponent (bits x))
        (UnpackedFloat.unpackMantissa (bits x)) :=
    unpack_eq_ofFields (bits x)
  exact isCanonical_ofFields (hfields.symm.trans h)

/-! ### Zeros and ones -/

theorem zero_eq_zero : Scalar.eq (Scalar.zero : Float) Scalar.zero = true := by rfl

theorem negZero_eq_zero : Scalar.eq (Scalar.negZero : Float) Scalar.zero = true := by
  rfl

theorem one_eq_one : Scalar.eq (Scalar.one : Float) Scalar.one = true := by rfl

theorem one_ne_zero : Scalar.eq (Scalar.one : Float) Scalar.zero = false := by rfl

theorem one_lt_thousand : Scalar.lt (Scalar.one : Float) Scalar.thousand = true := by rfl

theorem isFinite_one : (1 : Float).isFinite = true := by rfl

theorem isIntegral_one : Scalar.isIntegral (Scalar.one : Float) = true := by rfl

theorem negOne_lt_zero : Scalar.lt (Scalar.negOne : Float) Scalar.zero = true := by
  rfl

theorem parts_one : parts (1 : Float) = .finite .positive (2 ^ 52) (-52) (by decide) := by
  rfl

theorem ofParts_one : ofParts (.finite .positive (2 ^ 52) (-52) (by decide)) = 1 := by
  rw [← parts_one, ofParts_parts]

theorem positive_mul (s : Sign) : .positive * s = s := by
  cases s <;> rfl

theorem mul_positive (s : Sign) : s * .positive = s := by
  cases s <;> rfl

theorem eq_signedZero {z : Float} (h : Scalar.eq z Scalar.zero = true) :
    ∃ s, z = signedZero s := by
  have hzero : (Scalar.zero : Float) = signedZero .positive := by rfl
  rcases eq_or_zeros (Scalar.same_of_eq h) with rfl | ⟨s, -, rfl, -⟩
  · exact ⟨.positive, hzero⟩
  · exact ⟨s, rfl⟩

theorem eq_one {u : Float} (h : Scalar.eq u Scalar.one = true) : u = 1 := by
  rcases eq_or_zeros (Scalar.same_of_eq h) with rfl | ⟨s, s', rfl, -⟩
  · rfl
  · cases s <;> cases h

theorem add_eq (x y : Float) :
    x.add y = ofParts (UnpackedFloat.add Format.binary64 (parts x) (parts y)) := rfl

theorem mul_eq (x y : Float) :
    x.mul y = ofParts (UnpackedFloat.mul Format.binary64 (parts x) (parts y)) := rfl

theorem div_eq (x y : Float) :
    x.div y = ofParts (UnpackedFloat.div Format.binary64 (parts x) (parts y)) := rfl

/-- **Zeros add nothing.** -/
theorem add_zero_same {z : Float} (hz : Scalar.eq z Scalar.zero = true) (x : Float) :
    Scalar.Same (x.add z) x := by
  obtain ⟨s, rfl⟩ := eq_signedZero hz
  rw [add_eq, parts_signedZero]
  have hx := ofParts_parts x
  generalize parts x = u at hx
  subst hx
  cases u with
  | zero t => cases s <;> cases t <;> exact signedZero_same _ _
  | _ => exact .refl _

theorem zero_add_same {z : Float} (hz : Scalar.eq z Scalar.zero = true) (x : Float) :
    Scalar.Same (z.add x) x := by
  obtain ⟨s, rfl⟩ := eq_signedZero hz
  rw [add_eq, parts_signedZero]
  have hx := ofParts_parts x
  generalize parts x = u at hx
  subst hx
  cases u with
  | zero t => cases s <;> cases t <;> exact signedZero_same _ _
  | _ => exact .refl _

/-- **One multiplies nothing.** -/
theorem mul_one_eq (x : Float) : x.mul 1 = x := by
  conv_rhs => rw [← ofParts_parts x]
  rw [mul_eq, parts_one]
  congr 1
  cases hx : parts x with
  | infinity s => exact congrArg _ (mul_positive s)
  | zero s => exact congrArg _ (mul_positive s)
  | notANumber => rfl
  | finite s m e hm =>
    have hround := round_exact s hm (isCanonical_parts hx) 52
    rw [UnpackedFloat.mul, mul_positive]
    exact hround

theorem one_mul_eq (x : Float) : Float.mul 1 x = x := by
  conv_rhs => rw [← ofParts_parts x]
  rw [mul_eq, parts_one]
  congr 1
  cases hx : parts x with
  | infinity s => exact congrArg _ (positive_mul s)
  | zero s => exact congrArg _ (positive_mul s)
  | notANumber => rfl
  | finite s m e hm =>
    have hround := round_exact s hm (isCanonical_parts hx) 52
    rw [UnpackedFloat.mul, positive_mul, Nat.mul_comm, Int.add_comm]
    exact hround

theorem mul_one_same {u : Float} (hu : Scalar.eq u Scalar.one = true) (x : Float) :
    Scalar.Same (x.mul u) x := by
  rw [eq_one hu, mul_one_eq]
  exact .refl x

theorem one_mul_same {u : Float} (hu : Scalar.eq u Scalar.one = true) (x : Float) :
    Scalar.Same (u.mul x) x := by
  rw [eq_one hu, one_mul_eq]
  exact .refl x

theorem isNaN_notANumber : Scalar.isNaN (ofParts .notANumber) = true := by rfl

theorem signedZero_eq_zero (s : Sign) : Scalar.eq (signedZero s) Scalar.zero = true := by
  cases s <;> rfl

/-- A zero times anything is a zero or not a number. -/
theorem zero_mul_cases {z : Float} (hz : Scalar.eq z Scalar.zero = true) (x : Float) :
    Scalar.eq (z.mul x) Scalar.zero = true ∨ Scalar.isNaN (z.mul x) = true := by
  obtain ⟨s, rfl⟩ := eq_signedZero hz
  rw [mul_eq, parts_signedZero]
  cases parts x with
  | infinity t => exact .inr isNaN_notANumber
  | notANumber => exact .inr isNaN_notANumber
  | zero t => exact .inl (signedZero_eq_zero _)
  | finite t m e hm => exact .inl (signedZero_eq_zero _)

theorem mul_zero_cases {z : Float} (hz : Scalar.eq z Scalar.zero = true) (x : Float) :
    Scalar.eq (x.mul z) Scalar.zero = true ∨ Scalar.isNaN (x.mul z) = true := by
  obtain ⟨s, rfl⟩ := eq_signedZero hz
  rw [mul_eq, parts_signedZero]
  cases parts x with
  | infinity t => exact .inr isNaN_notANumber
  | notANumber => exact .inr isNaN_notANumber
  | zero t => exact .inl (signedZero_eq_zero _)
  | finite t m e hm => exact .inl (signedZero_eq_zero _)

/-- What is not a number stays so in products. -/
theorem isNaN_mul {x : Float} (hx : Scalar.isNaN x = true) (y : Float) :
    Scalar.isNaN (x.mul y) = true := by
  rw [isNaN_eq] at hx
  rw [mul_eq, eq_notANumber hx]
  exact isNaN_notANumber

/-- The quotient of a number by itself before rounding. -/
theorem divCore_self {m : Nat} (hm : 0 < m) (e : Int) :
    UnpackedFloat.divCore Format.binary64 m e m e = (2 ^ 53, -53, .exact) := by
  have htarget : min (e - e) (Format.binary64.targetExponent
      (totalExponent m e - totalExponent m e)) = -53 := by
    rw [Int.sub_self, Int.sub_self]
    rfl
  have hshift : (e - e - -53).toNat = 53 := by
    rw [Int.sub_self]
    rfl
  unfold UnpackedFloat.divCore
  simp only [htarget, hshift, Nat.shiftLeft_eq, Nat.mul_div_cancel_left _ hm, Nat.mul_mod_right]
  rfl

/-- **A finite double that is not zero goes into itself once.** -/
theorem div_self_eq {x : Float} (hx : x.isFinite = true) (hzero : Scalar.eq x Scalar.zero = false) :
    x.div x = 1 := by
  have hfinite : (parts x).isFinite = true := hx
  have hne : (parts x).beq (parts Scalar.zero) = false := hzero
  rw [div_eq, ← ofParts_one]
  congr 1
  cases h : parts x with
  | infinity s => rw [h] at hfinite; cases hfinite
  | notANumber => rw [h] at hfinite; cases hfinite
  | zero s => rw [h] at hne; cases s <;> cases hne
  | finite s m e hm =>
    have hsign : s / s = .positive := by cases s <;> rfl
    have hround := round_exact .positive (by decide) (isCanonical_parts parts_one) 1
    rw [UnpackedFloat.div, divCore_self hm, hsign]
    exact hround

theorem div_self_same {x y : Float} (h : Scalar.Same x y) (hy : y.isFinite = true)
    (hzero : Scalar.eq y Scalar.zero = false) : Scalar.Same (x.div y) Scalar.one := by
  rcases eq_or_zeros h with rfl | ⟨s, s', rfl, rfl⟩
  · rw [div_self_eq hy hzero]
    exact .refl _
  · rw [signedZero_eq_zero] at hzero
    cases hzero

/-- Zero over a number other than zero is a zero. -/
theorem zero_div_same {z x : Float} (hz : Scalar.eq z Scalar.zero = true)
    (hx : Scalar.isNaN x = false) (hzero : Scalar.eq x Scalar.zero = false) :
    Scalar.Same (z.div x) Scalar.zero := by
  obtain ⟨s, rfl⟩ := eq_signedZero hz
  rw [isNaN_eq] at hx
  have hne : (parts x).beq (parts Scalar.zero) = false := hzero
  rw [div_eq, parts_signedZero]
  cases h : parts x with
  | infinity t => exact signedZero_same _ .positive
  | notANumber => rw [h] at hx; cases hx
  | zero t => rw [h] at hne; cases t <;> cases hne
  | finite t m e hm => exact signedZero_same _ .positive

/-! ### Numbers of a platform -/

namespace Platform

variable (p : Platform)

theorem number_eq (x y : Float) :
    (Scalar.eq (α := p.Number) x y) = (Scalar.eq (α := Float) x y) := rfl

theorem number_lt (x y : Float) :
    (Scalar.lt (α := p.Number) x y) = (Scalar.lt (α := Float) x y) := rfl

theorem number_isIntegral (x : Float) :
    (Scalar.isIntegral (α := p.Number) x) = (Scalar.isIntegral (α := Float) x) := rfl

theorem number_same (x y : Float) :
    (Scalar.Same (α := p.Number) x y) = (Scalar.Same (α := Float) x y) := rfl

end Platform

end SymbolicAlgebra.Double
