import Mathlib.Data.List.Forall2
import SymbolicAlgebra.Function
import SymbolicAlgebra.Proofs.Order.Total

/-! # Operations on equal numbers

The zeros of either sign are equal, and what is not a number is the same as anything else that is
not. Most operations give the same results for the same arguments. Quotients, powers and the
trigonometric functions may give infinities of opposite signs instead (`Scalar.Agree`), as one over
a zero does; what these have in common is that they are not folded. -/

namespace SymbolicAlgebra

namespace Scalar

variable {α : Type} [Scalar α]

/-- Neither finite nor something that is not a number. -/
def isInfinite (x : α) : Bool := !isFinite x && !isNaN x

/-- Equal as numbers, or both not numbers. -/
def Same (x y : α) : Prop := same x y = true

instance (x y : α) : Decidable (Same x y) := inferInstanceAs (Decidable (same x y = true))

/-- The same, or two infinities. -/
def Agree (x y : α) : Prop := Same x y ∨ (isInfinite x = true ∧ isInfinite y = true)

end Scalar

/-- Numbers in a sensible order whose operations respect sameness, up to the sign of an infinity
where they divide. -/
class CongruentScalar (α : Type) [Scalar α] : Prop extends OrderedScalar α where
  lt_eq_false {x y : α} : Scalar.isNaN x = true ∨ Scalar.isNaN y = true → Scalar.lt x y = false
  isFinite_eq {x y : α} : Scalar.Same x y → Scalar.isFinite x = Scalar.isFinite y
  isIntegral_eq {x y : α} : Scalar.Same x y → Scalar.isIntegral x = Scalar.isIntegral y
  isIntegral_infinite {x : α} : Scalar.isInfinite x = true → Scalar.isIntegral x = false
  add {x y x' y' : α} : Scalar.Same x x' → Scalar.Same y y' →
    Scalar.Same (Scalar.add x y) (Scalar.add x' y')
  mul {x y x' y' : α} : Scalar.Same x x' → Scalar.Same y y' →
    Scalar.Same (Scalar.mul x y) (Scalar.mul x' y')
  rem {x y x' y' : α} : Scalar.Same x x' → Scalar.Same y y' →
    Scalar.Same (Scalar.rem x y) (Scalar.rem x' y')
  bracket (kind : Bracket) {x x' : α} : Scalar.Same x x' →
    Scalar.Same (kind.apply x) (kind.apply x')
  div {x y x' y' : α} : Scalar.Same x x' → Scalar.Same y y' →
    Scalar.Agree (Scalar.div x y) (Scalar.div x' y')
  pow {x y x' y' : α} : Scalar.Same x x' → Scalar.Same y y' →
    Scalar.Agree (Scalar.pow x y) (Scalar.pow x' y')
  trig (kind : Trig) {x x' : α} : Scalar.Same x x' → Scalar.Agree (kind.apply x) (kind.apply x')

namespace Scalar

variable {α : Type} [Scalar α]

/-! ### The same numbers -/

section Ordered

variable [OrderedScalar α]

theorem same_iff_order {x y : α} : Same x y ↔ order x y = .eq := order_eq_iff_same.symm

namespace Same

theorem refl (x : α) : Same x x := same_iff_order.mpr Std.ReflCmp.compare_self

theorem symm {x y : α} (h : Same x y) : Same y x :=
  same_iff_order.mpr (Std.OrientedCmp.eq_symm (same_iff_order.mp h))

theorem trans {x y z : α} (h : Same x y) (h' : Same y z) : Same x z :=
  same_iff_order.mpr (Std.TransCmp.eq_trans (same_iff_order.mp h) (same_iff_order.mp h'))

theorem order_eq {x y x' y' : α} (h : Same x x') (h' : Same y y') : order x y = order x' y' :=
  (Std.TransCmp.congr_left (same_iff_order.mp h)).trans
    (Std.TransCmp.congr_right (same_iff_order.mp h'))

theorem isNaN_eq {x y : α} (h : Same x y) : isNaN x = isNaN y := by
  rw [Same, same, Bool.or_eq_true, Bool.and_eq_true] at h
  rcases h with h | ⟨hx, hy⟩
  · obtain ⟨hx, hy⟩ := OrderedScalar.isNaN_of_eq h
    rw [hx, hy]
  · rw [hx, hy]

end Same

theorem eq_iff_same {x y : α} : eq x y = true ↔ Same x y ∧ isNaN x = false := by
  constructor
  · exact fun h => ⟨same_of_eq h, (OrderedScalar.isNaN_of_eq h).1⟩
  · intro ⟨h, hx⟩
    rwa [Same, same, hx, Bool.false_and, Bool.or_false] at h

theorem Same.eq_eq {x y x' y' : α} (h : Same x x') (h' : Same y y') : eq x y = eq x' y' := by
  rw [Bool.eq_iff_iff, eq_iff_same, eq_iff_same, same_iff_order, same_iff_order, h.order_eq h',
    h.isNaN_eq]

end Ordered

variable [CongruentScalar α]

theorem lt_iff_order {x y : α} : lt x y = true ↔ order x y = .lt ∧ isNaN y = false := by
  rcases hy : isNaN y
  · rcases hx : isNaN x
    · rw [order, hx, hy]
      rcases lt x y
      · rcases lt y x <;> simp
      · simp
    · rw [CongruentScalar.lt_eq_false (.inl hx), order, hx, hy]
      simp
  · rw [CongruentScalar.lt_eq_false (.inr hy)]
    simp

/-! ### Signs, minima and maxima -/

namespace Same

theorem lt_eq {x y x' y' : α} (h : Same x x') (h' : Same y y') : lt x y = lt x' y' := by
  rw [Bool.eq_iff_iff, lt_iff_order, lt_iff_order, h.order_eq h', h'.isNaN_eq]

theorem sign {x x' : α} (h : Same x x') : Same (sign x) (sign x') := by
  rw [Scalar.sign, Scalar.sign, h.eq_eq (refl zero), h.isNaN_eq, h.lt_eq (refl zero)]
  split_ifs
  · exact refl zero
  · exact h
  · exact refl negOne
  · exact refl one

theorem smaller {x y x' y' : α} (h : Same x x') (h' : Same y y') :
    Same (smaller x y) (smaller x' y') := by
  rw [Scalar.smaller, Scalar.smaller, h.isNaN_eq, h'.isNaN_eq, h'.lt_eq h]
  split_ifs <;> assumption

theorem larger {x y x' y' : α} (h : Same x x') (h' : Same y y') :
    Same (larger x y) (larger x' y') := by
  rw [Scalar.larger, Scalar.larger, h.isNaN_eq, h'.isNaN_eq, h.lt_eq h']
  split_ifs <;> assumption

theorem foldl {op : α → α → α}
    (hop : ∀ ⦃x x' : α⦄, Same x x' → ∀ ⦃y y' : α⦄, Same y y' → Same (op x y) (op x' y')) (x : α)
    {ys ys' : List α} (h : List.Forall₂ Same ys ys') :
    Same (ys.foldl op x) (ys'.foldl op x) :=
  List.rel_foldl hop (refl x) h

end Same

/-! ### Functions -/

namespace Agree

theorem isFinite_eq {x y : α} (h : Agree x y) : isFinite x = isFinite y := by
  rcases h with h | ⟨hx, hy⟩
  · exact CongruentScalar.isFinite_eq h
  · rw [isInfinite, Bool.and_eq_true, Bool.not_eq_true'] at hx hy
    rw [hx.1, hy.1]

theorem isIntegral_eq {x y : α} (h : Agree x y) : isIntegral x = isIntegral y := by
  rcases h with h | ⟨hx, hy⟩
  · exact CongruentScalar.isIntegral_eq h
  · rw [CongruentScalar.isIntegral_infinite hx, CongruentScalar.isIntegral_infinite hy]

omit [CongruentScalar α] in
/-- Results of which one is finite are the same. -/
theorem same_of_isFinite {x y : α} (h : Agree x y) (hx : isFinite x = true) : Same x y := by
  refine h.resolve_right fun hboth => ?_
  rw [isInfinite, hx] at hboth
  cases hboth.1

/-- Results of which one is whole are the same. -/
theorem same_of_isIntegral {x y : α} (h : Agree x y) (hx : isIntegral x = true) : Same x y := by
  refine h.resolve_right fun hboth => ?_
  rw [CongruentScalar.isIntegral_infinite hboth.1] at hx
  cases hx

end Agree

end Scalar

variable {α : Type} [Scalar α] [CongruentScalar α]

theorem Unary.apply_agree (f : Unary) {x x' : α} (h : Scalar.Same x x') :
    Scalar.Agree (f.apply x) (f.apply x') :=
  match f with
  | bracket kind => .inl (CongruentScalar.bracket kind h)
  | trig kind => CongruentScalar.trig kind h
  | sign => .inl h.sign

theorem Nary.apply_same (f : Nary) {xs xs' : List α} (h : List.Forall₂ Scalar.Same xs xs') :
    Scalar.Same (f.apply xs) (f.apply xs') :=
  match f with
  | sum => .foldl (fun _ _ hx _ _ hy => CongruentScalar.add hx hy) _ h
  | product => .foldl (fun _ _ hx _ _ hy => CongruentScalar.mul hx hy) _ h
  | min => .foldl (fun _ _ hx _ _ hy => hx.smaller hy) _ h
  | max => .foldl (fun _ _ hx _ _ hy => hx.larger hy) _ h

end SymbolicAlgebra
