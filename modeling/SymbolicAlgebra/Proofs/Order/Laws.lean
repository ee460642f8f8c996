import SymbolicAlgebra.Proofs.Double.Order
import SymbolicAlgebra.Proofs.Order.Sort

/-! # Laws of the canonical order

Structural equality is an equivalence, and the canonical order is a total order of its classes. This
holds for expressions of any shape, with arguments in any order and number and with numbers that are
not finite, and asks of the numbers no more than an `OrderedScalar` does. -/

namespace SymbolicAlgebra.Expr

variable {α : Type} [Scalar α] [OrderedScalar α]

/-- Two comparisons that do not go down, one after the other. -/
theorem compare_eq_then_of_ne_gt {a b c : Expr α} (hab : compare a b ≠ .gt)
    (hbc : compare b c ≠ .gt) : compare a c = (compare a b).then (compare b c) := by
  rcases h : compare a b with _ | _ | _
  · exact Std.TransCmp.lt_of_lt_of_isLE h (Ordering.isLE_iff_ne_gt.mpr hbc)
  · exact Std.TransCmp.congr_left h
  · exact absurd h hab

/-- **The canonical order is a total order up to structural equality.** Structural equality is an
equivalence; comparing the other way around gives the opposite; expressions compare equal exactly if
they are structurally equal; the order is transitive, where two equals in a row are equal and one
strict comparison makes the whole strict; and structurally equal expressions compare alike. -/
theorem canonical_order_laws :
    (Equivalence fun a b : Expr α => (a == b) = true) ∧
    (∀ a b : Expr α, compare a b = (compare b a).swap) ∧
    (∀ a b : Expr α, compare a b = .eq ↔ (a == b) = true) ∧
    (∀ a b c : Expr α, compare a b ≠ .gt → compare b c ≠ .gt →
      compare a c = (compare a b).then (compare b c)) ∧
    ∀ a b a' b' : Expr α, (a == a') = true → (b == b') = true → compare a b = compare a' b' :=
  ⟨⟨Same.refl, Same.symm, Same.trans⟩, fun _ _ => Std.OrientedCmp.eq_swap,
    fun _ _ => Same.iff_compare.symm, fun _ _ _ => compare_eq_then_of_ne_gt,
    fun _ _ _ _ => Same.compare_congr⟩

/-- Zeros of either sign and what is not a number: a logarithm with a zero for its base is equal to
the one with the other zero, and both come before an empty product. -/
theorem canonical_order_laws_zeros :
    let nan : Expr Float := .const (0 / 0)
    let a : Expr Float := .log (.const 0) nan
    let b : Expr Float := .log (.const (-0)) nan
    let c : Expr Float := .product []
    (b == a) = true ∧ compare a b = .eq ∧ compare a c = .lt ∧ compare c b = .gt := by
  intro nan a b c
  obtain ⟨hequivalence, hswap, heq, htrans, hcongr⟩ := canonical_order_laws (α := Float)
  have hab : (a == b) = true := by decide +kernel
  have hbc : compare b c = .lt := rfl
  have hle : compare a b ≠ .gt := by
    rw [(heq a b).mpr hab]
    decide
  have hac := htrans a b c hle (by rw [hbc]; decide)
  rw [(heq a b).mpr hab, hbc] at hac
  refine ⟨hequivalence.symm hab, (heq a b).mpr hab, hac, ?_⟩
  rw [← hcongr c a c b (hequivalence.refl c) hab, hswap, hac]
  rfl

end SymbolicAlgebra.Expr
