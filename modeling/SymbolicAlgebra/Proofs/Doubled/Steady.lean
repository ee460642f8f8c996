import SymbolicAlgebra.Proofs.Doubled.Pair

/-! # Multiples that stay

A coefficient other than zero and one next to steady factors is a product that a step leaves alone
(`product_steady`). So twice a fixed term has come to rest as soon as it has been multiplied
(`twice_rests`), unless the term has the coefficient one half, which vanishes, or is a power with a
negative exponent, which goes below the line. -/

namespace SymbolicAlgebra

open SymbolicAlgebra.Expr (Same Fixed CollectedFactors)

variable {α : Type} [Scalar α]

namespace Simplify

/-! ### A coefficient and steady factors -/

/-- Factors that may stand next to a coefficient: steady ones of different bases in their order, to
which no number is distributed. -/
structure SteadyFactors (gs : List (Expr α)) : Prop where
  nonempty : gs ≠ []
  steady : ∀ g ∈ gs, SteadyFactor g
  sorted : gs.Pairwise fun f g => Expr.mayPrecede .product f g = true
  bases : gs.Pairwise fun f g => (f.base == g.base) = false
  not_pair : ∀ x y, gs ≠ [.sum [x, y]]

namespace SteadyFactors

variable {k : α} {gs : List (Expr α)} {r : Expr α} (h : SteadyFactors gs)
include h

theorem not_const : ∀ g ∈ gs, g.isConst = false := fun g hg => (h.steady g hg).not_const

theorem ascending_eq (k : α) : Expr.ascending (.const k :: gs) = .const k :: gs :=
  StableSort.sort_eq_self (List.pairwise_cons.mpr
    ⟨fun g hg => Expr.const_mayPrecede k (h.not_const g hg), h.sorted⟩)

theorem distribute?_eq (k : α) : distribute? (.const k :: gs) = none := by
  unfold distribute?
  split
  · next x y heq => exact absurd (List.cons.inj heq).2 (h.not_pair x y)
  · rfl

theorem multiplyFactors_eq {solve : Solver α} (hzero : Scalar.eq k Scalar.zero = false)
    (hone : Scalar.eq k Scalar.one = false) :
    multiplyFactors solve (.const k :: gs) = multiplyPowers solve (.const k :: gs) := by
  have hnumber : ∀ g ∈ Expr.const k :: gs, g.isZero = false ∧ g.isOne = false :=
    List.forall_mem_cons.mpr ⟨⟨hzero, hone⟩, fun g hg =>
      ⟨Expr.isConstant_of_not_const (h.not_const g hg) _, Expr.isConstant_of_not_const (h.not_const g hg) _⟩⟩
  have hany : (Expr.const k :: gs).any Expr.isZero = false := by
    simpa using fun g hg => (hnumber g hg).1
  have hall : ((Expr.const k :: gs).filter fun f => !f.isOne) = .const k :: gs :=
    List.filter_eq_self.mpr fun g hg => by simp [(hnumber g hg).2]
  obtain ⟨g, rest, rfl⟩ := List.exists_cons_of_ne_nil h.nonempty
  have hg := h.not_const g List.mem_cons_self
  rw [multiplyFactors.eq_2 _ _ (by simp), hany, hall, if_neg Bool.false_ne_true]
  cases g with
  | const _ => cases hg
  | _ => cases rest <;> simp only [h.ascending_eq, h.distribute?_eq]

variable [StandardScalar α]

/-- **A coefficient times steady factors** stays as it is. -/
theorem product_same (hzero : Scalar.eq k Scalar.zero = false)
    (hone : Scalar.eq k Scalar.one = false) (hmul : Scalar.Same (Scalar.mul Scalar.one k) k)
    (hr : (Task.product (.const k :: gs)).ComesTo r) : Same r (.product (.const k :: gs)) := by
  obtain ⟨depth | depth, hr⟩ := hr
  · cases hr
  change multiplyFactors (solve depth) (.const k :: gs) = some r at hr
  rw [h.multiplyFactors_eq hzero hone] at hr
  have hcompound : ∀ g ∈ Expr.const k :: gs, g.isCompound = false :=
    List.forall_mem_cons.mpr ⟨rfl, fun g hg => (h.steady g hg).not_compound⟩
  have hflat := factorsOfList_of_not_compound hcompound
  have hothers : nonConstants (.const k :: gs) = gs :=
    (List.filter_cons_of_neg (by simp [Expr.isConst, Expr.constant?])).trans
      (Expr.nonConstants_eq_self h.not_const)
  have hconstants : constantsOf (.const k :: gs) = [k] :=
    congrArg (k :: ·) (Expr.constantsOf_eq_nil h.not_const)
  have hcoefficient : coefficient (.const k :: gs) = [.const (Scalar.mul Scalar.one k)] := by
    simp only [coefficient, hconstants]
    exact if_neg (by
      rw [Bool.not_eq_true]
      exact (hmul.eq_eq (.refl _)).trans hone)
  have hsame := multiplyPowers_steady (expandFractions_of_not_compound hcompound)
    (by rw [hflat, hothers]; exact h.steady) (by rw [hflat, hothers]; exact h.bases) hr
  have hlength : 2 ≤ (Expr.const (Scalar.mul Scalar.one k) :: gs).length :=
    Nat.succ_le_succ (List.length_pos_of_ne_nil h.nonempty)
  rw [hflat, hothers, hcoefficient, List.singleton_append, Expr.productOf, h.ascending_eq,
    Expr.downgrade_product_of_length hlength] at hsame
  exact hsame.trans (.nary .product (.cons (.of_numbers hmul)
    (List.forall₂_same.mpr fun g _ => .refl g)))

/-- A step leaves a coefficient times steady factors as it is. -/
theorem step_same (hzero : Scalar.eq k Scalar.zero = false)
    (hone : Scalar.eq k Scalar.one = false) (hmul : Scalar.Same (Scalar.mul Scalar.one k) k)
    (hr : (Task.step (.product (.const k :: gs))).ComesTo r) :
    Same r (.product (.const k :: gs)) := by
  obtain ⟨gs', hgs', hr⟩ := comesTo_product_of_step hr
  cases hgs' with
  | cons hk hgs' =>
    obtain rfl := comesTo_const hk
    have hsame : List.Forall₂ Same _ gs :=
      ((List.forall₂_and_left gs _).mpr ⟨h.steady, hgs'⟩).flip.imp fun g' g hg => by
        obtain ⟨hsteady, depth, hg⟩ := hg
        exact hsteady.fixed.step hg
    obtain ⟨r', hr', hsame'⟩ := hr.of_same (.product (.cons (.refl _) hsame))
    exact hsame'.trans (h.product_same hzero hone hmul hr')

end SteadyFactors

/-! ### Twice a fixed term -/

variable [DoublingScalar α] {t b b' : Expr α}

/-- Twice a term whose coefficient vanishes or that goes below the line may come to rest later than
that of other terms. -/
def Restless (t : Expr α) : Prop :=
  Scalar.eq (Scalar.add (splitCoefficient t).1 (splitCoefficient t).1) Scalar.one = true ∨
    isBelow t = true

theorem not_fixed_times_pair {c : α} {x y : Expr α} :
    ¬(Expr.product [.const c, .sum [x, y]]).Fixed := by
  intro h
  have hcollected := h.collectedFactors
  have hsum : (Expr.sum [x, y]).Fixed := h.child (List.mem_cons_of_mem _ List.mem_cons_self)
  obtain ⟨depth, r, hr, hsame⟩ := h.product_solved
  obtain ⟨a, b, -, -, hsum⟩ := distributed_pair (k := c)
    (hcollected.nonzero (.const c) List.mem_cons_self)
    (hcollected.not_one (.const c) List.mem_cons_self) hsum.collectedTerms ⟨depth + 1, hr⟩
  cases (hsame.symm.trans hsum).node

/-- Twice a fixed product has a coefficient, unless it is one. -/
theorem exists_coefficient_twice {fs : List (Expr α)} (h : (Expr.product fs).Fixed)
    (hone : Scalar.eq (Scalar.add (splitCoefficient (.product fs)).1
      (splitCoefficient (.product fs)).1) Scalar.one = false) :
    ∃ k, coefficient (.const Scalar.two :: fs) = [.const k] ∧
      Scalar.eq k Scalar.zero = false ∧ Scalar.eq k Scalar.one = false := by
  have hzero := DoublingScalar.add_self_ne_zero (coefficient_ne_zero h)
  obtain ⟨k, hk, hsame⟩ : ∃ k, Scalar.product (constantsOf (.const Scalar.two :: fs)) = k ∧
      Scalar.Same k (Scalar.add (splitCoefficient (.product fs)).1
        (splitCoefficient (.product fs)).1) := by
    rcases h.collectedFactors.const_first with hnone | ⟨c, gs, rfl, hgs⟩
    · refine ⟨_, congrArg (fun xs => Scalar.product (Scalar.two :: xs))
        (Expr.constantsOf_eq_nil hnone), ?_⟩
      have hsplit : (splitCoefficient (.product fs)).1 = Scalar.one := by
        unfold splitCoefficient
        split
        · next heq =>
          cases heq
          cases hnone _ List.mem_cons_self
        · rfl
        · rfl
      rw [hsplit]
      exact (DoublingScalar.one_mul Scalar.two).trans DoublingScalar.one_add_one.symm
    · exact ⟨_, congrArg (fun xs => Scalar.product (Scalar.two :: c :: xs))
        (Expr.constantsOf_eq_nil hgs), Scalar.two_coefficient c⟩
  have hone' : Scalar.eq k Scalar.one = false := (hsame.eq_eq (.refl _)).trans hone
  refine ⟨k, ?_, (hsame.eq_eq (.refl _)).trans hzero, hone'⟩
  simp only [coefficient, hk, hone', Bool.false_eq_true, if_false]

/-- The factors of a fixed product are steady but for the coefficient. -/
theorem steadyFactors {fs : List (Expr α)} (h : (Expr.product fs).Fixed) :
    SteadyFactors (nonConstants fs) := by
  have hcollected := h.collectedFactors
  have hlength := h.two_le_length
  refine ⟨?nonempty, fun g => h.steadyFactor, hcollected.sorted.filter _, hcollected.bases, ?pair⟩
  case nonempty =>
    intro hnil
    have hconstants := hcollected.constants
    rw [List.filter_eq_self.mpr fun f hf => by
      simpa using List.filter_eq_nil_iff.mp hnil f hf] at hconstants
    omega
  case pair =>
    intro x y hpair
    rcases hcollected.const_first with hnone | ⟨c, gs, rfl, hgs⟩
    · rw [Expr.nonConstants_eq_self hnone] at hpair
      rw [hpair] at hlength
      exact absurd hlength (by simp)
    · rw [nonConstants, List.filter_cons_of_neg (by simp [Expr.isConst, Expr.constant?]),
        List.filter_eq_self.mpr fun g hg => by simp [hgs g hg]] at hpair
      exact not_fixed_times_pair (hpair ▸ h)

/-- The other factors of a fixed product with a coefficient. -/
theorem coefficient_first {c : α} {gs : List (Expr α)}
    (h : (Expr.product (.const c :: gs)).Fixed) : (∀ g ∈ gs, g.isConst = false) ∧
      nonConstants (.const c :: gs) = gs ∧ SteadyFactors gs := by
  have hgs : ∀ g ∈ gs, g.isConst = false := by
    rcases h.collectedFactors.const_first with hnone | ⟨_, _, heq, hgs⟩
    · cases hnone _ List.mem_cons_self
    · obtain ⟨-, rfl⟩ := List.cons.inj heq
      exact hgs
  have hothers : nonConstants (.const c :: gs) = gs :=
    (List.filter_cons_of_neg (by simp [Expr.isConst, Expr.constant?])).trans
      (Expr.nonConstants_eq_self hgs)
  exact ⟨hgs, hothers, hothers ▸ steadyFactors h⟩

/-- **Twice a fixed product** is the product with another coefficient, which a step leaves alone. -/
theorem twice_product_rests {fs : List (Expr α)} (h : (Expr.product fs).Fixed)
    (hone : Scalar.eq (Scalar.add (splitCoefficient (.product fs)).1
      (splitCoefficient (.product fs)).1) Scalar.one = false)
    (hb : (Task.product [.const Scalar.two, .product fs]).ComesTo b)
    (hb' : (Task.step b).ComesTo b') : Same b' b := by
  obtain ⟨k, hk, hzero, hone⟩ := exists_coefficient_twice h hone
  have hsteady := steadyFactors h
  obtain ⟨depth | depth, hb⟩ := hb
  · cases hb
  have hsame := h.multiplyFactors_product DoublingScalar.two_ne_zero DoublingScalar.two_ne_one hb
  have hlength : 2 ≤ (Expr.const k :: nonConstants fs).length :=
    Nat.succ_le_succ (List.length_pos_of_ne_nil hsteady.nonempty)
  rw [hk, List.singleton_append, Expr.productOf, hsteady.ascending_eq,
    Expr.downgrade_product_of_length hlength] at hsame
  obtain ⟨r, hr, hsame'⟩ := hb'.of_same (.step hsame)
  exact (hsame'.trans (hsteady.step_same hzero hone (DoublingScalar.one_mul k) hr)).trans hsame.symm

/-- **Twice a fixed term has come to rest**, unless the term is restless. -/
theorem twice_rests (ht : t.Fixed) (hconst : t.isConst = false) (hsum : t.isSum = false)
    (hfraction : t.isFraction = false) (hrest : ¬Restless t)
    (hb : (Task.product [.const Scalar.two, t]).ComesTo b) (hb' : (Task.step b).ComesTo b') :
    Same b' b := by
  simp only [Restless, not_or, Bool.not_eq_true] at hrest
  by_cases hproduct : ∃ fs, t = .product fs
  · obtain ⟨fs, rfl⟩ := hproduct
    exact twice_product_rests ht hrest.1 hb hb'
  · have hsteady : SteadyFactors [t] :=
      { nonempty := List.cons_ne_nil _ _
        steady := List.forall_mem_singleton.mpr
          { fixed := ht
            not_const := hconst
            not_compound := by
              unfold Expr.isCompound
              split
              · cases hfraction
              · exact absurd ⟨_, rfl⟩ hproduct
              · rfl
            above := hrest.2 }
        sorted := List.pairwise_singleton _ _
        bases := List.pairwise_singleton _ _
        not_pair := by
          rintro x y heq
          rw [(List.cons.inj heq).1] at hsum
          cases hsum }
    have hsame := hsteady.product_same DoublingScalar.two_ne_zero DoublingScalar.two_ne_one
      (DoublingScalar.one_mul _) hb
    obtain ⟨r, hr, hsame'⟩ := hb'.of_same (.step hsame)
    exact (hsame'.trans (hsteady.step_same DoublingScalar.two_ne_zero DoublingScalar.two_ne_one
      (DoublingScalar.one_mul _) hr)).trans hsame.symm

end Simplify

end SymbolicAlgebra
