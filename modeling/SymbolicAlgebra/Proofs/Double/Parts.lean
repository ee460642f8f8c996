import SymbolicAlgebra.Proofs.Double.Order

/-! # The parts of doubles

The dyadic number read off the bits of a double has the sign, mantissa and exponent of its parts
(`ofFloat?_eq`), and the magnitude of a double has its parts with a positive sign (`parts_abs`). -/

namespace SymbolicAlgebra.Double

open Float.Model (UnpackedFloat Format)
open Float.Model.UnpackedFloat (unpackMantissa unpackExponent unpackSign packComponents)

/-- The bits of a double. -/
def bits (x : Float) : BitVec Format.binary64.numBits := x.toModel.toBits.toBitVec

theorem toNat_bits (x : Float) : x.toBits.toNat = (bits x).toNat := rfl

theorem toNat_unpackExponent (b : BitVec Format.binary64.numBits) :
    (unpackExponent b).toNat = (b.toNat >>> 52) % 2048 := by
  rw [unpackExponent, BitVec.toNat_cast, BitVec.extractLsb_toNat]
  rfl

theorem toNat_unpackMantissa (b : BitVec Format.binary64.numBits) :
    (unpackMantissa b).toNat = b.toNat % Dyadic.leadingBit := by
  rw [unpackMantissa, BitVec.toNat_cast, BitVec.extractLsb_toNat]
  rfl

theorem toNat_unpackSign (b : BitVec Format.binary64.numBits) :
    (unpackSign b).toNat = b.toNat >>> 63 := by
  rw [unpackSign, BitVec.toNat_cast, BitVec.extractLsb_toNat]
  have hlt : b.toNat < 2 ^ 64 := b.isLt
  have hshift : b.toNat >>> 63 < 2 := by
    rw [Nat.shiftRight_eq_div_pow]
    omega
  exact Nat.mod_eq_of_lt hshift

theorem toNat_normal (m : BitVec 52) : (1#1 ++ m).toNat = Dyadic.leadingBit + m.toNat := by
  rw [BitVec.toNat_append, ← Nat.shiftLeft_add_eq_or_of_lt m.isLt]
  rfl

theorem isNegative_eq (b : BitVec Format.binary64.numBits) :
    (UnpackedFloat.Sign.ofBitVec (unpackSign b) == .negative) = (b.toNat >>> 63 == 1) := by
  rw [← toNat_unpackSign]
  generalize unpackSign b = s
  revert s
  decide

/-- The sign of a double with these bits. -/
def signOf (b : BitVec Format.binary64.numBits) : UnpackedFloat.Sign :=
  UnpackedFloat.Sign.ofBitVec (unpackSign b)

/-- The parts by sign, exponent field and mantissa field. -/
def ofFields (s : UnpackedFloat.Sign) (e : BitVec 11) (m : BitVec 52) : UnpackedFloat :=
  if e = -1#11 then if m = 0#52 then .infinity s else .notANumber
  else if e = 0#11 then
    if h : m = 0#52 then .zero s
    else .finite s m.toNat Dyadic.minExponent
      (Nat.pos_of_ne_zero fun hm => h (BitVec.eq_of_toNat_eq hm))
  else .finite s (Dyadic.leadingBit + m.toNat) (e.toNat - 1075) (Nat.add_pos_left (by decide) _)

theorem unpack_eq_ofFields (b : BitVec Format.binary64.numBits) :
    UnpackedFloat.unpack _ b = ofFields (signOf b) (unpackExponent b) (unpackMantissa b) := by
  rw [UnpackedFloat.unpack, ofFields]
  simp only
  split_ifs with hall hzero hempty hzero
  · rfl
  · rfl
  · rfl
  · rw [hempty]
    rfl
  · simp only [toNat_normal]
    rfl

/-- **A double as a dyadic number** has its parts. -/
theorem ofFloat?_eq (x : Float) :
    Dyadic.ofFloat? x = match parts x with
      | .finite s m e _ => some ⟨s == .negative, m, e⟩
      | .zero s => some ⟨s == .negative, 0, Dyadic.minExponent⟩
      | _ => none := by
  have hparts : parts x =
      ofFields (signOf (bits x)) (unpackExponent (bits x)) (unpackMantissa (bits x)) :=
    unpack_eq_ofFields (bits x)
  rw [Dyadic.ofFloat?, toNat_bits, ← isNegative_eq, ← toNat_unpackExponent, ← toNat_unpackMantissa,
    ← signOf, hparts, ofFields]
  generalize unpackExponent (bits x) = e
  generalize unpackMantissa (bits x) = m
  by_cases hall : e = -1#11
  · rw [if_pos hall, hall]
    by_cases hzero : m = 0#52
    · rw [if_pos hzero]
      rfl
    · rw [if_neg hzero]
      rfl
  · have hnat : e.toNat ≠ 2047 := fun h => hall (BitVec.eq_of_toNat_eq h)
    rw [if_neg hall, if_neg hnat]
    by_cases hempty : e = 0#11
    · rw [if_pos hempty, hempty]
      by_cases hzero : m = 0#52
      · rw [dif_pos hzero, hzero]
        rfl
      · rw [dif_neg hzero]
        rfl
    · have hnat' : e.toNat ≠ 0 := fun h => hempty (BitVec.eq_of_toNat_eq h)
      rw [if_neg hempty, if_neg hnat']

/-! ### Magnitudes -/

theorem abs_ofFields (s : UnpackedFloat.Sign) (e : BitVec 11) (m : BitVec 52) :
    (ofFields s e m).abs = ofFields .positive e m := by
  rw [ofFields, ofFields]
  split_ifs <;> rfl

theorem unpack_packComponents (s : UnpackedFloat.Sign) (e : BitVec 11) (m : BitVec 52) :
    UnpackedFloat.unpack _ (packComponents Format.binary64 s e m) = ofFields s e m := by
  rw [unpack_eq_ofFields, UnpackedFloat.unpackMantissa_packComponents,
    UnpackedFloat.unpackExponent_packComponents, signOf, UnpackedFloat.unpackSign_packComponents,
    UnpackedFloat.Sign.ofBitVec_toBitVec]

/-- Packing keeps the parts that some bits have. -/
theorem unpack_pack_unpack (b : BitVec Format.binary64.numBits) :
    UnpackedFloat.unpack _ (UnpackedFloat.pack Format.binary64 (UnpackedFloat.unpack _ b)) =
      UnpackedFloat.unpack _ b := by
  rw [UnpackedFloat.pack_unpack]
  split_ifs with hnan
  · have hfields : unpackExponent b = -1#_ ∧ unpackMantissa b ≠ 0#_ := by
      simpa only [UnpackedFloat.isNaNBits, decide_eq_true_eq] using hnan
    rw [UnpackedFloat.unpack_packedNaN, UnpackedFloat.unpack]
    simp only
    rw [if_pos hfields.1, if_neg hfields.2]
  · rfl

theorem unpack_pack_ofFields (s : UnpackedFloat.Sign) (e : BitVec 11) (m : BitVec 52) :
    UnpackedFloat.unpack Format.binary64 (UnpackedFloat.pack _ (ofFields s e m)) =
      ofFields s e m := by
  rw [← unpack_packComponents, unpack_pack_unpack]

/-- **The magnitude of a double** has its parts, with a positive sign. -/
theorem parts_abs (x : Float) : parts x.abs = (parts x).abs := by
  have hparts : parts x =
      ofFields (signOf (bits x)) (unpackExponent (bits x)) (unpackMantissa (bits x)) :=
    unpack_eq_ofFields (bits x)
  have habs : parts x.abs = UnpackedFloat.unpack _ (UnpackedFloat.pack _ (parts x).abs) := rfl
  rw [habs, hparts, abs_ofFields, unpack_pack_ofFields]

end SymbolicAlgebra.Double
