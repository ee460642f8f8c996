import SymbolicAlgebra.Proofs.Congruence.Number
import SymbolicAlgebra.Proofs.Double.Parts

/-! # Doubles up to the sign of zero

Doubles with the same parts are the same bit by bit, so two doubles are the same number only if they
are identical or both zeros. Whether an operation respects sameness is therefore a question about
zeros. For the arithmetic of the standard it is answered here; what the platform provides is taken
as a parameter. -/

namespace SymbolicAlgebra.Double

open Float.Model (UnpackedFloat Format)
open Float.Model.UnpackedFloat (Sign)

/-! ### Doubles by their parts -/

/-- The double with some parts. -/
def ofParts (u : UnpackedFloat) : Float := ⟨Float.Model.pack u⟩

theorem pack_parts (x : Float) : UnpackedFloat.pack Format.binary64 (parts x) = bits x := by
  have hpack := UnpackedFloat.pack_unpack (bits x)
  split_ifs at hpack with hnan
  · have hfields : UnpackedFloat.unpackExponent (bits x) = -1#_ ∧
        UnpackedFloat.unpackMantissa (bits x) ≠ 0#_ := by
      simpa only [UnpackedFloat.isNaNBits, decide_eq_true_eq] using hnan
    exact hpack.trans (x.toModel.valid.eq_packedNaN hfields.1 hfields.2).symm
  · exact hpack

/-- **A double is determined by its parts.** -/
theorem ofParts_parts (x : Float) : ofParts (parts x) = x := by
  obtain ⟨⟨b, hb⟩⟩ := x
  rw [ofParts, Float.ofModel.injEq, Float.Model.pack, Float.Model.mk.injEq]
  exact congrArg UInt64.ofBitVec (pack_parts _)

/-- A zero with a sign. -/
def signedZero (s : Sign) : Float := ofParts (.zero s)

theorem parts_signedZero (s : Sign) : parts (signedZero s) = .zero s := by
  cases s <;> rfl

theorem signedZero_same (s s' : Sign) : Scalar.Same (signedZero s) (signedZero s') := by
  cases s <;> cases s' <;> rfl

theorem eq_or_zeros_of_beq {u v : UnpackedFloat} (h : u.beq v = true) :
    u = v ∨ ∃ s s', u = .zero s ∧ v = .zero s' := by
  obtain ⟨hu, hv⟩ := isNaN_of_beq h
  rw [beq_iff_rank hu hv] at h
  rcases u with ⟨_ | _⟩ | _ | s | ⟨_ | _, m, e, hm⟩ <;>
    rcases v with ⟨_ | _⟩ | _ | s' | ⟨_ | _, m', e', hm'⟩ <;>
    simp_all [rank, UnpackedFloat.isNaN]

theorem eq_notANumber {u : UnpackedFloat} (h : u.isNaN = true) : u = .notANumber := by
  cases u <;> first | rfl | cases h

/-- **The same doubles** are identical or both zeros. -/
theorem eq_or_zeros {x y : Float} (h : Scalar.Same x y) :
    x = y ∨ ∃ s s', x = signedZero s ∧ y = signedZero s' := by
  rw [Scalar.Same, Scalar.same, Bool.or_eq_true, Bool.and_eq_true, eq_eq_beq, isNaN_eq,
    isNaN_eq] at h
  have hparts : parts x = parts y ∨ ∃ s s', parts x = .zero s ∧ parts y = .zero s' := by
    rcases h with h | ⟨hx, hy⟩
    · exact eq_or_zeros_of_beq h
    · exact .inl ((eq_notANumber hx).trans (eq_notANumber hy).symm)
  rw [← ofParts_parts x, ← ofParts_parts y]
  rcases hparts with h | ⟨s, s', hx, hy⟩
  · exact .inl (congrArg ofParts h)
  · exact .inr ⟨s, s', congrArg ofParts hx, congrArg ofParts hy⟩

/-- What respects sameness respects it at zeros. -/
theorem related_of_zeros {γ : Type} {R : γ → γ → Prop} (hrefl : ∀ z, R z z) {f : Float → γ}
    (hzeros : ∀ s s', R (f (signedZero s)) (f (signedZero s'))) {x y : Float}
    (h : Scalar.Same x y) : R (f x) (f y) := by
  rcases eq_or_zeros h with rfl | ⟨s, s', rfl, rfl⟩
  · exact hrefl _
  · exact hzeros s s'

/-! ### Tests -/

theorem isFinite_of_same {x y : Float} (h : Scalar.Same x y) : x.isFinite = y.isFinite :=
  related_of_zeros (fun _ => rfl) (fun s s' => by cases s <;> cases s' <;> rfl) h

theorem isIntegral_of_same {x y : Float} (h : Scalar.Same x y) : isIntegral x = isIntegral y :=
  related_of_zeros (fun _ => rfl) (fun s s' => by cases s <;> cases s' <;> rfl) h

theorem isIntegral_infinite {x : Float} (h : Scalar.isInfinite x = true) :
    isIntegral x = false := by
  rw [Scalar.isInfinite, Bool.and_eq_true, Bool.not_eq_true', Bool.not_eq_true', isNaN_eq] at h
  have hfinite : (parts x).isFinite = false := h.1
  rw [isIntegral, ofFloat?_eq]
  cases hx : parts x with
  | infinity s => rfl
  | notANumber => rfl
  | _ => simp [hx, UnpackedFloat.isFinite] at hfinite

theorem lt_of_isNaN {x y : Float} (h : Scalar.isNaN x = true ∨ Scalar.isNaN y = true) :
    Scalar.lt x y = false := by
  rw [isNaN_eq, isNaN_eq] at h
  rw [lt_eq_lt]
  rcases h with h | h
  · rw [eq_notANumber h]
    rfl
  · rw [eq_notANumber h]
    cases parts x <;> rfl

/-! ### Arithmetic -/

/-- What respects sameness in two arguments respects it at zeros on either side. -/
theorem related_of_zeros₂ {γ : Type} {R : γ → γ → Prop} (hrefl : ∀ z, R z z)
    (htrans : ∀ {z z' z''}, R z z' → R z' z'' → R z z'') {f : Float → Float → γ}
    (hleft : ∀ s s' y, R (f (signedZero s) y) (f (signedZero s') y))
    (hright : ∀ s s' x, R (f x (signedZero s)) (f x (signedZero s'))) {x y x' y' : Float}
    (h : Scalar.Same x x') (h' : Scalar.Same y y') : R (f x y) (f x' y') :=
  htrans (related_of_zeros hrefl (f := fun x => f x y) (fun s s' => hleft s s' y) h)
    (related_of_zeros hrefl (fun s s' => hright s s' x') h')

/-- An operation on parts respects sameness if it does at zeros on either side. -/
theorem related_of_parts {R : Float → Float → Prop} (hrefl : ∀ z, R z z)
    (htrans : ∀ {z z' z''}, R z z' → R z' z'' → R z z'')
    {g : UnpackedFloat → UnpackedFloat → UnpackedFloat}
    (hleft : ∀ s s' v, R (ofParts (g (.zero s) v)) (ofParts (g (.zero s') v)))
    (hright : ∀ s s' u, R (ofParts (g u (.zero s))) (ofParts (g u (.zero s'))))
    {x y x' y' : Float} (h : Scalar.Same x x') (h' : Scalar.Same y y') :
    R (ofParts (g (parts x) (parts y))) (ofParts (g (parts x') (parts y'))) := by
  refine related_of_zeros₂ hrefl htrans (f := fun x y => ofParts (g (parts x) (parts y)))
    (fun s s' y => ?_) (fun s s' x => ?_) h h'
  · simp only [parts_signedZero]
    exact hleft s s' _
  · simp only [parts_signedZero]
    exact hright s s' _

theorem add_same {x y x' y' : Float} : Scalar.Same x x' → Scalar.Same y y' →
    Scalar.Same (x.add y) (x'.add y') :=
  related_of_parts (g := UnpackedFloat.add _) .refl .trans
    (fun s s' v => by
      cases v with
      | zero t => cases s <;> cases s' <;> cases t <;> exact signedZero_same _ _
      | _ => exact .refl _)
    fun s s' u => by
      cases u with
      | zero t => cases s <;> cases s' <;> cases t <;> exact signedZero_same _ _
      | _ => exact .refl _

theorem mul_same {x y x' y' : Float} : Scalar.Same x x' → Scalar.Same y y' →
    Scalar.Same (x.mul y) (x'.mul y') :=
  related_of_parts (g := UnpackedFloat.mul _) .refl .trans
    (fun s s' v => by
      cases v with
      | zero t => exact signedZero_same _ _
      | finite t m e hm => exact signedZero_same _ _
      | _ => exact .refl _)
    fun s s' u => by
      cases u with
      | zero t => exact signedZero_same _ _
      | finite t m e hm => exact signedZero_same _ _
      | _ => exact .refl _

theorem agree_trans {x y z : Float} (h : Scalar.Agree x y) (h' : Scalar.Agree y z) :
    Scalar.Agree x z := by
  have hinfinite {x y : Float} (h : Scalar.Same x y) :
      Scalar.isInfinite x = Scalar.isInfinite y := by
    rw [Scalar.isInfinite, Scalar.isInfinite, h.isNaN_eq]
    exact congrArg (fun b => !b && _) (isFinite_of_same h)
  rcases h with h | ⟨hx, hy⟩
  · rcases h' with h' | ⟨hy, hz⟩
    · exact .inl (h.trans h')
    · exact .inr ⟨(hinfinite h).trans hy, hz⟩
  · rcases h' with h' | ⟨-, hz⟩
    · exact .inr ⟨hx, (hinfinite h').symm.trans hy⟩
    · exact .inr ⟨hx, hz⟩

theorem infinity_agree (s s' : Sign) :
    Scalar.Agree (ofParts (.infinity s)) (ofParts (.infinity s')) := by
  cases s <;> cases s' <;> exact .inr ⟨rfl, rfl⟩

theorem div_agree {x y x' y' : Float} : Scalar.Same x x' → Scalar.Same y y' →
    Scalar.Agree (x.div y) (x'.div y') := by
  refine related_of_parts (R := Scalar.Agree) (g := UnpackedFloat.div _)
    (fun z => .inl (.refl z)) agree_trans (fun s s' v => ?_) fun s s' u => ?_
  · cases v with
    | finite t m e hm => exact .inl (signedZero_same _ _)
    | infinity t => exact .inl (signedZero_same _ _)
    | _ => exact .inl (.refl _)
  · cases u with
    | finite t m e hm => exact infinity_agree _ _
    | infinity t => exact infinity_agree _ _
    | _ => exact .inl (.refl _)

theorem abs_same {x y : Float} : Scalar.Same x y → Scalar.Same x.abs y.abs :=
  related_of_zeros .refl fun s s' => by cases s <;> cases s' <;> rfl

/-! ### Remainders -/

theorem ofFloat?_signedZero (s : Sign) :
    Dyadic.ofFloat? (signedZero s) = some ⟨s == .negative, 0, Dyadic.minExponent⟩ := by
  rw [ofFloat?_eq, parts_signedZero]

theorem toFloat_zero (s : Sign) (e : Int) :
    Dyadic.toFloat ⟨s == .negative, 0, e⟩ = signedZero s := by
  have hbits : Dyadic.toFloat ⟨s == .negative, 0, e⟩ =
      Float.ofBits (UInt64.ofNat (if s == .negative then 1 <<< 63 else 0)) := rfl
  rw [hbits]
  cases s <;> decide +kernel

/-- The remainder of a zero is a zero, with the same sign. -/
theorem toFloat_rem_zero (s : Sign) (e : Int) (b : Dyadic) :
    (Dyadic.rem ⟨s == .negative, 0, e⟩ b).toFloat = signedZero s := by
  rw [Dyadic.rem]
  simp only [Nat.zero_shiftLeft, Nat.zero_mod]
  exact toFloat_zero s _

theorem rem_same {x y x' y' : Float} : Scalar.Same x x' → Scalar.Same y y' →
    Scalar.Same (rem x y) (rem x' y') := by
  refine related_of_zeros₂ .refl .trans (fun s s' y => ?_) fun s s' x => ?_
  · rw [rem, rem, ofFloat?_signedZero, ofFloat?_signedZero]
    cases Dyadic.ofFloat? y with
    | some b =>
      simp only [toFloat_rem_zero]
      split_ifs
      · exact .refl _
      · exact signedZero_same s s'
    | none =>
      simp only
      split_ifs
      · exact .refl _
      · exact signedZero_same s s'
  · rw [rem, rem, ofFloat?_signedZero, ofFloat?_signedZero]
    cases Dyadic.ofFloat? x <;> exact .refl _

/-! ### Functions of the platform -/

/-- The functions of doubles that a platform provides. -/
structure Platform where
  pow : Float → Float → Float
  floor : Float → Float
  ceil : Float → Float
  ln : Float → Float
  sin : Float → Float
  cos : Float → Float
  tan : Float → Float
  arcsin : Float → Float
  arccos : Float → Float
  arctan : Float → Float

namespace Platform

/-- The doubles of a platform. -/
def Number (_ : Platform) : Type := Float

instance (p : Platform) : Scalar p.Number :=
  { (inferInstanceAs (Scalar Float) : Scalar p.Number) with
    pow := p.pow
    floor := p.floor
    ceil := p.ceil
    ln := p.ln
    sin := p.sin
    cos := p.cos
    tan := p.tan
    arcsin := p.arcsin
    arccos := p.arccos
    arctan := p.arctan }

/-- A platform whose functions do not tell the zeros apart, other than by the sign of an
infinity. -/
structure Congruent (p : Platform) : Prop where
  floor : ∀ s s', Scalar.Same (p.floor (signedZero s)) (p.floor (signedZero s'))
  ceil : ∀ s s', Scalar.Same (p.ceil (signedZero s)) (p.ceil (signedZero s'))
  pow_left : ∀ s s' y, Scalar.Agree (p.pow (signedZero s) y) (p.pow (signedZero s') y)
  pow_right : ∀ s s' x, Scalar.Agree (p.pow x (signedZero s)) (p.pow x (signedZero s'))
  sin : ∀ s s', Scalar.Same (p.sin (signedZero s)) (p.sin (signedZero s'))
  cos : ∀ s s', Scalar.Same (p.cos (signedZero s)) (p.cos (signedZero s'))
  tan : ∀ s s', Scalar.Same (p.tan (signedZero s)) (p.tan (signedZero s'))
  arcsin : ∀ s s', Scalar.Same (p.arcsin (signedZero s)) (p.arcsin (signedZero s'))
  arccos : ∀ s s', Scalar.Same (p.arccos (signedZero s)) (p.arccos (signedZero s'))
  arctan : ∀ s s', Scalar.Same (p.arctan (signedZero s)) (p.arctan (signedZero s'))

instance (p : Platform) : OrderedScalar p.Number where
  isNaN_of_eq := OrderedScalar.isNaN_of_eq (α := Float)
  eq_iff := OrderedScalar.eq_iff (α := Float)
  lt_asymm := OrderedScalar.lt_asymm (α := Float)
  lt_cotrans := OrderedScalar.lt_cotrans (α := Float)

namespace Congruent

variable {p : Platform} (hp : p.Congruent) {x y : p.Number}
include hp

theorem bracket (kind : Bracket) (h : Scalar.Same x y) :
    Scalar.Same (kind.apply x) (kind.apply y) := by
  cases kind with
  | floor => exact related_of_zeros (R := Scalar.Same) .refl hp.floor h
  | ceil => exact related_of_zeros (R := Scalar.Same) .refl hp.ceil h
  | abs => exact abs_same h

theorem trig (kind : Trig) (h : Scalar.Same x y) :
    Scalar.Agree (kind.apply x) (kind.apply y) := by
  have hsin : Scalar.Same (p.sin x) (p.sin y) :=
    related_of_zeros (R := Scalar.Same) .refl hp.sin h
  have hcos : Scalar.Same (p.cos x) (p.cos y) :=
    related_of_zeros (R := Scalar.Same) .refl hp.cos h
  have htan : Scalar.Same (p.tan x) (p.tan y) :=
    related_of_zeros (R := Scalar.Same) .refl hp.tan h
  cases kind with
  | sin => exact .inl hsin
  | cos => exact .inl hcos
  | tan => exact .inl htan
  | csc => exact div_agree (.refl _) hsin
  | sec => exact div_agree (.refl _) hcos
  | cot => exact div_agree (.refl _) htan
  | arcsin => exact .inl (related_of_zeros (R := Scalar.Same) .refl hp.arcsin h)
  | arccos => exact .inl (related_of_zeros (R := Scalar.Same) .refl hp.arccos h)
  | arctan => exact .inl (related_of_zeros (R := Scalar.Same) .refl hp.arctan h)

/-- **Doubles are congruent** if the functions of their platform do not tell the zeros apart. -/
theorem congruentScalar : CongruentScalar p.Number where
  lt_eq_false := lt_of_isNaN
  isFinite_eq := isFinite_of_same
  isIntegral_eq := isIntegral_of_same
  isIntegral_infinite := isIntegral_infinite
  add := add_same
  mul := mul_same
  rem := rem_same
  div := div_agree
  bracket kind _ _ h := hp.bracket kind h
  pow := related_of_zeros₂ (R := Scalar.Agree) (fun z => .inl (.refl z)) agree_trans
    hp.pow_left hp.pow_right
  trig kind _ _ h := hp.trig kind h

end Congruent

/-! ### Few numbers -/

/-- A platform whose functions are known at few numbers, zeros and ones among them. -/
def sparse : Platform where
  pow x y := if y == 0 then 1 else if y == 1 then x else if y == -1 then 1 / x else 0 / 0
  floor x := if isIntegral x then x else 0 / 0
  ceil x := if isIntegral x then x else 0 / 0
  ln x := if x == 1 then 0 else 0 / 0
  sin x := if x == 0 then x else 0 / 0
  cos x := if x == 0 then 1 else 0 / 0
  tan x := if x == 0 then x else 0 / 0
  arcsin x := if x == 0 then x else 0 / 0
  arccos x := if x == 1 then 0 else 0 / 0
  arctan x := if x == 0 then x else 0 / 0

theorem sparse_congruent : sparse.Congruent where
  floor s s' := by cases s <;> cases s' <;> decide +kernel
  ceil s s' := by cases s <;> cases s' <;> decide +kernel
  pow_left s s' y := by
    simp only [sparse]
    split_ifs
    · exact .inl (.refl _)
    · exact .inl (signedZero_same s s')
    · exact div_agree (.refl 1) (signedZero_same s s')
    · exact .inl (.refl _)
  pow_right s s' x := by
    have hzero (s : Sign) : (signedZero s == 0) = true := by cases s <;> decide +kernel
    simp only [sparse, hzero, if_true]
    exact .inl (.refl _)
  sin s s' := by cases s <;> cases s' <;> decide +kernel
  cos s s' := by cases s <;> cases s' <;> decide +kernel
  tan s s' := by cases s <;> cases s' <;> decide +kernel
  arcsin s s' := by cases s <;> cases s' <;> decide +kernel
  arccos s s' := by cases s <;> cases s' <;> decide +kernel
  arctan s s' := by cases s <;> cases s' <;> decide +kernel

end Platform

end SymbolicAlgebra.Double
