import SymbolicAlgebra.Proofs.Double.Units

/-! # Doubling

A double times two is the double added to itself. Both round twice the mantissa, the one with 51
zero bits behind it and the other one as it is, and twice the mantissa has a canonical form, unless
the result is too large for both. -/

namespace SymbolicAlgebra.Double

open Float.Model (UnpackedFloat Format totalExponent)
open Float.Model.UnpackedFloat (Sign roundWithAccuracy)

/-- Twice a canonical mantissa is canonical with one zero bit behind it, or as it is. -/
theorem IsCanonical.double {m : Nat} {e : Int} (hm : 0 < m) (h : IsCanonical m e) :
    ∃ n k : Nat, 0 < n ∧ 2 * m = n * 2 ^ k ∧ IsCanonical n (e + k) := by
  rw [IsCanonical, Format.targetExponent, totalExponent] at h
  have hbits : ((Format.binary64.mantissaBits : Nat) : Int) = 53 := rfl
  have hmin : Format.binary64.minExponent = -1074 := rfl
  rw [hbits, hmin] at h
  rcases le_or_gt (-1074 : Int) (m.log2 + 1 + e - 53) with hle | hlt
  · rw [max_eq_left hle] at h
    refine ⟨m, 1, hm, Nat.mul_comm 2 m, ?_⟩
    rw [IsCanonical, Format.targetExponent, totalExponent, hbits, hmin, max_eq_left (by omega)]
    omega
  · rw [max_eq_right hlt.le] at h
    refine ⟨2 * m, 0, by omega, (Nat.mul_one _).symm, ?_⟩
    rw [IsCanonical, Format.targetExponent, totalExponent, hbits, hmin,
      Nat.log2_two_mul hm.ne', max_eq_right (by push_cast; omega)]
    omega

/-- However many zero bits stand behind twice a mantissa, rounding gives the same. -/
theorem round_double {m : Nat} {e : Int} (s : Sign) (hm : 0 < m) (h : IsCanonical m e) (k : Nat) :
    roundWithAccuracy Format.binary64 s (2 * m * 2 ^ k) (e - k) .exact =
      roundWithAccuracy Format.binary64 s (2 * m) e .exact := by
  obtain ⟨n, j, hn, hdouble, hcanonical⟩ := h.double hm
  have hmany := round_exact s hn hcanonical (j + k)
  have hnone := round_exact s hn hcanonical j
  rw [hdouble]
  rw [pow_add, ← mul_assoc] at hmany
  have hexponent : e - (k : Int) = e + j - ((j + k : Nat) : Int) := by push_cast; ring
  have hexponent' : e = e + j - (j : Int) := by ring
  rw [hexponent, hmany]
  conv_rhs => rw [hexponent']
  exact hnone.symm

theorem decreaseExponent_of_le {e q : Int} (m : Nat) (h : e ≤ q) :
    UnpackedFloat.decreaseExponent m e q = (m, e) := by
  have hshift : (e - q).toNat = 0 := by omega
  rw [UnpackedFloat.decreaseExponent]
  simp only [hshift, Nat.shiftLeft_zero, Nat.cast_zero, sub_zero]

/-- Rounding twice a canonical mantissa need not lower its exponent. -/
theorem round_two_mul {m : Nat} {e : Int} (s : Sign) (hm : 0 < m) (h : IsCanonical m e) :
    UnpackedFloat.round Format.binary64 s (2 * m) e =
      roundWithAccuracy Format.binary64 s (2 * m) e .exact := by
  have hle : e ≤ Format.binary64.targetExponent (totalExponent (2 * m) e) := by
    rw [IsCanonical, Format.targetExponent, totalExponent] at h
    rw [Format.targetExponent, totalExponent, Nat.log2_two_mul hm.ne']
    push_cast
    omega
  rw [UnpackedFloat.round, decreaseExponent_of_le _ hle]

/-- The sum of a mantissa with itself, with either sign. -/
theorem normalize_double {m : Nat} {e : Int} (s : Sign) (hm : 0 < m) :
    UnpackedFloat.normalize Format.binary64 (s.apply m + s.apply m) e .positive =
      UnpackedFloat.round Format.binary64 s (2 * m) e := by
  rw [UnpackedFloat.normalize]
  cases s with
  | positive =>
    have hsum : Sign.positive.apply m + Sign.positive.apply m = ((2 * m : Nat) : Int) := by
      rw [Sign.apply]
      omega
    have hpos : compare ((2 * m : Nat) : Int) 0 = .gt := compare_gt_iff_gt.mpr (by omega)
    rw [hsum, hpos, Int.toNat_natCast]
  | negative =>
    have hsum : Sign.negative.apply m + Sign.negative.apply m = -((2 * m : Nat) : Int) := by
      rw [Sign.apply]
      omega
    have hneg : compare (-((2 * m : Nat) : Int)) 0 = .lt := compare_lt_iff_lt.mpr (by omega)
    rw [hsum, hneg, neg_neg, Int.toNat_natCast]

theorem two_ne_zero : Scalar.eq (Scalar.two : Float) Scalar.zero = false := by rfl

theorem two_ne_one : Scalar.eq (Scalar.two : Float) Scalar.one = false := by rfl

theorem one_add_one : Scalar.Same (Scalar.add Scalar.one Scalar.one : Float) Scalar.two := by
  rfl

theorem parts_two : parts (2 : Float) = .finite .positive (2 ^ 52) (-51) (by decide) := by
  rfl

/-- A canonical number is added to itself by rounding twice its mantissa. -/
theorem add_self_finite {m : Nat} {e : Int} (s : Sign) (hm : 0 < m) (h : IsCanonical m e) :
    UnpackedFloat.add Format.binary64 (.finite s m e hm) (.finite s m e hm) =
      roundWithAccuracy Format.binary64 s (2 * m) e .exact := by
  rw [UnpackedFloat.add]
  simp only [min_self, decreaseExponent_of_le _ (le_refl e)]
  rw [normalize_double s hm, round_two_mul s hm h]

/-- **Twice a double** is its sum with itself. -/
theorem two_mul_eq (x : Float) : Float.mul 2 x = x.add x := by
  rw [mul_eq, add_eq, parts_two]
  congr 1
  cases hx : parts x with
  | infinity s => cases s <;> rfl
  | zero s => cases s <;> rfl
  | notANumber => rfl
  | finite s m e hm =>
    have hcanonical := isCanonical_parts hx
    have hmul : UnpackedFloat.mul Format.binary64 (.finite .positive (2 ^ 52) (-51) (by decide))
        (.finite s m e hm) = roundWithAccuracy Format.binary64 s (2 * m) e .exact := by
      have hround := round_double s hm hcanonical 51
      rw [UnpackedFloat.mul, positive_mul, ← hround]
      congr 1
      · ring
      · omega
    rw [hmul, add_self_finite s hm hcanonical]

theorem ofFields_eq_zero {s s' : Sign} {e : BitVec 11} {m : BitVec 52}
    (h : ofFields s e m = .zero s') : e = 0#11 ∧ m = 0#52 := by
  rw [ofFields] at h
  split_ifs at h with _ _ hexponent hmantissa
  exact ⟨hexponent, hmantissa⟩

/-- A canonical number is not packed as a zero. -/
theorem ofParts_finite_ne {n : Nat} {e : Int} (s s' : Sign) (hn : 0 < n) (h : IsCanonical n e) :
    ofParts (.finite s n e hn) ≠ signedZero s' := by
  intro heq
  have hzero : UnpackedFloat.unpack _ (UnpackedFloat.pack Format.binary64 (.finite s n e hn)) =
      .zero s' := (congrArg parts heq).trans (parts_signedZero s')
  have hbits : Format.binary64.mantissaBits = 53 := rfl
  have hmin : Format.binary64.minExponent = -1074 := rfl
  have hbias : Format.binary64.exponentBias = 1023 := rfl
  have hstored : Format.binary64.mantissaBitsWithoutImplicit = 52 := rfl
  have hexponent : Format.binary64.exponentBits = 11 := rfl
  rw [IsCanonical, Format.targetExponent, totalExponent, hbits, hmin] at h
  rw [UnpackedFloat.pack.eq_4] at hzero
  split_ifs at hzero with hlarge hnormal
  · cases s <;> cases s' <;> cases hzero
  · -- a normal number has bits in its exponent field
    rw [unpack_packComponents] at hzero
    have hfield := congrArg BitVec.toNat (ofFields_eq_zero hzero).1
    rw [hbits] at hnormal
    rw [hexponent, hbias, hstored] at hlarge
    simp only [hbias, BitVec.toNat_ofNat] at hfield
    omega
  · -- a subnormal number has bits in its mantissa field
    rw [unpack_packComponents] at hzero
    have hfield := congrArg BitVec.toNat (ofFields_eq_zero hzero).2
    rw [hbits] at hnormal
    have hlt : n < 2 ^ 52 := (Nat.log2_lt hn.ne').mp (by omega)
    simp only [BitVec.toNat_ofNat] at hfield
    omega

/-- **The sum of a double with itself** is zero for zeros only. -/
theorem add_self_ne_zero {x : Float} (hx : Scalar.eq x Scalar.zero = false) :
    Scalar.eq (Scalar.add x x) Scalar.zero = false := by
  refine Bool.eq_false_iff.mpr fun hsum => ?_
  obtain ⟨s', hs'⟩ := eq_signedZero hsum
  change x.add x = signedZero s' at hs'
  rw [add_eq] at hs'
  have hzero := (congrArg parts hs').trans (parts_signedZero s')
  cases hparts : parts x with
  | infinity s =>
    rw [hparts] at hzero
    cases s <;> cases hzero
  | zero s =>
    change (parts x).beq (parts Scalar.zero) = false at hx
    rw [hparts] at hx
    cases s <;> cases hx
  | notANumber =>
    rw [hparts] at hzero
    cases hzero
  | finite s m e hm =>
    have hcanonical := isCanonical_parts hparts
    obtain ⟨n, k, hn, hdouble, hcanonical'⟩ := hcanonical.double hm
    have hround := round_exact s hn hcanonical' k
    rw [← hdouble, Int.add_sub_cancel] at hround
    rw [hparts, add_self_finite s hm hcanonical, hround] at hs'
    exact ofParts_finite_ne s s' hn hcanonical' hs'

/-! ### Opposites -/

theorem negOne_ne_zero : Scalar.eq (Scalar.negOne : Float) Scalar.zero = false := by rfl

theorem negOne_ne_one : Scalar.eq (Scalar.negOne : Float) Scalar.one = false := by rfl

theorem one_not_negative : Scalar.lt (Scalar.one : Float) Scalar.zero = false := by rfl

theorem parts_negOne : parts (Scalar.negOne : Float) =
    .finite .negative (2 ^ 52) (-52) (by decide) := by
  rfl

theorem negative_mul_negative : Sign.negative * Sign.negative = .positive := by rfl

/-- Minus one times a negative double is its magnitude. -/
theorem negOne_mul_eq_abs {x : Float} (hx : Scalar.lt x Scalar.zero = true) :
    Float.mul Scalar.negOne x = x.abs := by
  have habs : x.abs = ofParts (parts x).abs := rfl
  rw [mul_eq, parts_negOne, habs]
  rw [lt_eq_lt] at hx
  congr 1
  cases hparts : parts x with
  | infinity s =>
    rw [hparts] at hx
    cases s with
    | positive => cases hx
    | negative => rfl
  | zero s =>
    rw [hparts] at hx
    cases s <;> cases hx
  | notANumber =>
    rw [hparts] at hx
    cases hx
  | finite s m e hm =>
    rw [hparts] at hx
    cases s with
    | positive => cases hx
    | negative =>
      have hround := round_exact .positive hm (isCanonical_parts hparts) 52
      rw [UnpackedFloat.mul, negative_mul_negative, Nat.mul_comm, Int.add_comm]
      exact hround

/-- **The opposite of a negative double** is neither negative nor zero. -/
theorem neg_of_negative {x : Float} (hx : Scalar.lt x Scalar.zero = true) :
    Scalar.lt (Scalar.mul Scalar.negOne x) Scalar.zero = false ∧
      Scalar.eq (Scalar.mul Scalar.negOne x) Scalar.zero = false := by
  have habs : Scalar.mul Scalar.negOne x = x.abs := negOne_mul_eq_abs hx
  rw [lt_eq_lt] at hx
  rw [habs, lt_eq_lt, eq_eq_beq, parts_abs]
  cases hparts : parts x with
  | infinity s => cases s <;> exact ⟨rfl, rfl⟩
  | zero s =>
    rw [hparts] at hx
    cases s <;> cases hx
  | notANumber => exact ⟨rfl, rfl⟩
  | finite s m e hm => exact ⟨rfl, rfl⟩

end SymbolicAlgebra.Double
