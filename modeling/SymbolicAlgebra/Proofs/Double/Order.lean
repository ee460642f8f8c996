import Mathlib
import SymbolicAlgebra.Double.Instances
import SymbolicAlgebra.Proofs.Order.Total

/-! # The order of doubles

Doubles are ordered as their ranks are: by sign and kind first, then by exponent and mantissa, the
other way around for negative numbers. Zeros have one rank. So doubles have a sensible order
(`OrderedScalar`). -/

namespace SymbolicAlgebra.Double

open Float.Model (UnpackedFloat)

/-- The parts of a double. -/
def parts (x : Float) : UnpackedFloat := x.toModel.unpack

/-- The place of a number in the order. -/
def rank : UnpackedFloat → ℤ ×ₗ ℤ ×ₗ ℤ
  | .infinity .negative => toLex (-2, toLex (0, 0))
  | .finite .negative m e _ => toLex (-1, toLex (-e, -(m : ℤ)))
  | .zero _ => toLex (0, toLex (0, 0))
  | .finite .positive m e _ => toLex (1, toLex (e, (m : ℤ)))
  | .infinity .positive => toLex (2, toLex (0, 0))
  | .notANumber => toLex (3, toLex (0, 0))

/-! ### Comparisons by rank -/

theorem then_eq_lt_iff (e e' : ℤ) (m m' : ℕ) :
    (compare e e').then (compare m m') = .lt ↔ e < e' ∨ e = e' ∧ m < m' := by
  rw [Ordering.then_eq_lt, Int.compare_eq_lt, Int.compare_eq_eq, Nat.compare_eq_lt]

theorem then_eq_gt_iff (e e' : ℤ) (m m' : ℕ) :
    (compare e e').then (compare m m') = .gt ↔ e' < e ∨ e = e' ∧ m' < m := by
  rw [Ordering.then_eq_gt, Int.compare_eq_gt, Int.compare_eq_eq, Nat.compare_eq_gt]

theorem lt_iff_rank {u v : UnpackedFloat} (hu : u.isNaN = false) (hv : v.isNaN = false) :
    u.lt v = true ↔ rank u < rank v := by
  rcases u with ⟨_ | _⟩ | _ | s | ⟨_ | _, m, e, hm⟩ <;>
    rcases v with ⟨_ | _⟩ | _ | s' | ⟨_ | _, m', e', hm'⟩ <;>
    simp_all [UnpackedFloat.lt, UnpackedFloat.compare, UnpackedFloat.isNaN, rank,
      Prod.Lex.toLex_lt_toLex, then_eq_lt_iff, then_eq_gt_iff]
  rfl

theorem beq_iff_rank {u v : UnpackedFloat} (hu : u.isNaN = false) (hv : v.isNaN = false) :
    u.beq v = true ↔ rank u = rank v := by
  rcases u with ⟨_ | _⟩ | _ | s | ⟨_ | _, m, e, hm⟩ <;>
    rcases v with ⟨_ | _⟩ | _ | s' | ⟨_ | _, m', e', hm'⟩ <;>
    simp_all [UnpackedFloat.beq, UnpackedFloat.compare, UnpackedFloat.isNaN, rank]
  all_goals rfl

theorem isNaN_of_beq {u v : UnpackedFloat} (h : u.beq v = true) :
    u.isNaN = false ∧ v.isNaN = false := by
  rcases u with ⟨_ | _⟩ | _ | s | ⟨_ | _, m, e, hm⟩ <;>
    rcases v with ⟨_ | _⟩ | _ | s' | ⟨_ | _, m', e', hm'⟩ <;>
    simp_all [UnpackedFloat.beq, UnpackedFloat.compare, UnpackedFloat.isNaN]

/-! ### Doubles -/

theorem eq_eq_beq (x y : Float) : Scalar.eq x y = (parts x).beq (parts y) := rfl

theorem lt_eq_lt (x y : Float) : Scalar.lt x y = (parts x).lt (parts y) :=
  Bool.decide_eq_true.trans Bool.decide_eq_true

theorem isNaN_eq (x : Float) : Scalar.isNaN x = (parts x).isNaN := by
  rw [Scalar.isNaN, eq_eq_beq]
  rcases parts x with ⟨_ | _⟩ | _ | s | ⟨_ | _, m, e, hm⟩ <;>
    simp [UnpackedFloat.beq, UnpackedFloat.compare, UnpackedFloat.isNaN]
  all_goals rfl

instance : OrderedScalar Float where
  isNaN_of_eq {x y} h := by
    rw [isNaN_eq, isNaN_eq]
    exact isNaN_of_beq h
  eq_iff {x y} hx hy := by
    rw [isNaN_eq] at hx hy
    rw [eq_eq_beq, lt_eq_lt, lt_eq_lt, Bool.eq_false_iff, Bool.eq_false_iff, beq_iff_rank hx hy,
      ne_eq, ne_eq, lt_iff_rank hx hy, lt_iff_rank hy hx, not_lt, not_lt, and_comm]
    exact le_antisymm_iff
  lt_asymm {x y} hx hy h := by
    rw [isNaN_eq] at hx hy
    rw [lt_eq_lt, lt_iff_rank hx hy] at h
    rw [lt_eq_lt, Bool.eq_false_iff, ne_eq, lt_iff_rank hy hx]
    exact lt_asymm h
  lt_cotrans {x y z} hx hy hz h := by
    rw [isNaN_eq] at hx hy hz
    rw [lt_eq_lt, lt_iff_rank hx hz] at h
    rw [lt_eq_lt, lt_eq_lt, lt_iff_rank hx hy, lt_iff_rank hy hz]
    exact (lt_or_ge _ _).imp id fun hle => lt_of_le_of_lt hle h

end SymbolicAlgebra.Double
