import SymbolicAlgebra.Proofs.Double.Doubling
import SymbolicAlgebra.Proofs.Doubled.Meeting

/-! # An expression added to itself

The sum of an expression with itself and its product with two are simplified along different ways,
the one by collecting like terms and the other by multiplying factors. The ways meet at the first
step or at the second one, and if both of them come to an end they come to the same end
(`simplify_sum_self`). They need not meet at sums of three terms or more, over which no factor is
distributed, and where parts that still change are merged on the one way only. -/

namespace SymbolicAlgebra

open SymbolicAlgebra.Expr (Same Fixed)

variable {α : Type} [Scalar α]

/-! ### Fixed points -/

namespace Expr

/-- Simplification of the expression reaches its fixed point in less than so many steps: two results
in a row are equal, and no step on the way is given up. -/
def ConvergesBelow (passes : Nat) (e : Expr α) : Prop :=
  ∃ pass, 1 ≤ pass ∧ pass < passes ∧ (simplifyStep^[pass + 1] e == simplifyStep^[pass] e) = true ∧
    ∀ k < pass, (Simplify.solve (Simplify.fuelFor (.step (simplifyStep^[k] e)))
      (.step (simplifyStep^[k] e))).isSome

/-- Simplification of the expression reaches its fixed point before the passes run out. -/
def Converges (e : Expr α) : Prop := e.ConvergesBelow Simplify.maxPasses

theorem Converges.settles {e : Expr α} (h : e.Converges) : e.Settles := by
  obtain ⟨pass, hpos, hlt, hsame, -⟩ := h
  exact ⟨pass, hpos, hlt, hsame⟩

theorem comesTo_of_isSome {e : Expr α}
    (h : (Simplify.solve (Simplify.fuelFor (.step e)) (.step e)).isSome) :
    (Task.step e).ComesTo e.simplifyStep := by
  obtain ⟨r, hr⟩ := Option.isSome_iff_exists.mp h
  have hstep : e.simplifyStep = r := by rw [simplifyStep, Simplify.run, hr, Option.getD_some]
  exact ⟨_, hstep ▸ hr⟩

theorem comesTo_of_fixed {e : Expr α} (h : Same e.simplifyStep e) :
    (Task.step e).ComesTo e.simplifyStep := by
  obtain ⟨r, hr, -⟩ := solved_of_fixed h
  exact comesTo_of_isSome (by rw [hr]; rfl)

namespace ConvergesBelow

variable {e : Expr α} {passes : Nat} (h : e.ConvergesBelow passes)
include h

theorem first : (Task.step e).ComesTo e.simplifyStep := by
  obtain ⟨pass, hpos, -, -, hsolved⟩ := h
  exact comesTo_of_isSome (hsolved 0 hpos)

theorem second : (Task.step e.simplifyStep).ComesTo e.simplifyStep.simplifyStep := by
  obtain ⟨pass, hpos, -, hsame, hsolved⟩ := h
  rcases Nat.lt_or_ge 1 pass with hlt | hle
  · exact comesTo_of_isSome (hsolved 1 hlt)
  · obtain rfl : pass = 1 := by omega
    exact comesTo_of_fixed (e := e.simplifyStep) hsame

end ConvergesBelow

/-- A fixed point that is reached in two steps is there after two steps. -/
theorem ConvergesBelow.rests [CongruentScalar α] {e r : Expr α} (h : e.ConvergesBelow 3)
    (hr : (Task.step e.simplifyStep.simplifyStep).ComesTo r) :
    Same r e.simplifyStep.simplifyStep := by
  have hfixed : Same e.simplifyStep.simplifyStep.simplifyStep e.simplifyStep.simplifyStep := by
    obtain ⟨pass, hpos, hlt, hsame, -⟩ := h
    rcases Nat.lt_or_ge 1 pass with htwo | hle
    · obtain rfl : pass = 2 := by omega
      exact hsame
    · obtain rfl : pass = 1 := by omega
      exact Same.simplifyStep hsame
  exact hr.unique (comesTo_of_fixed hfixed) ▸ hfixed

/-- What is simplified alike whether it is added to itself or doubled: a number, a product or another
term to which its coefficient is left when it is doubled, what no step changes any more if it is no
sum, and a sum of two such terms of which twice either has come to rest by the second step, if it
might not have done so at the first one. -/
inductive DoublesAlike : Expr α → Prop
  | const (c : α) : DoublesAlike (.const c)
  | doublable {e : Expr α} (h : e.Doublable) : DoublesAlike e
  | fixed {e : Expr α} (h : e.Fixed) (hsum : e.isSum = false) : DoublesAlike e
  | pair {t u : Expr α} (h : (sum [t, u]).Fixed) (hrests : ∀ v ∈ [t, u], Simplify.Restless v →
      (product [const Scalar.two, v]).ConvergesBelow 3) : DoublesAlike (sum [t, u])

variable [DoublingScalar α]

theorem Fixed.paired {t : Expr α} (h : t.Fixed) (hsum : t.isSum = false)
    (hrests : Simplify.Restless t → (product [.const Scalar.two, t]).ConvergesBelow 3) :
    Simplify.Paired t where
  fixed := h
  not_sum := hsum
  rests hrest b b' b'' hb hb' hb'' := by
    have hconverges := hrests hrest
    obtain ⟨depth, r, hr, hsame⟩ := h.solved
    have hfirst := Simplify.comesTo_product_two ⟨depth + 1, hr⟩ hconverges.first
    have hstart := hfirst.same hb (.product (.cons (.refl _) (.cons hsame .nil)))
    have hsecond := hconverges.second.same hb' (.step hstart)
    obtain ⟨r', hr', hsame'⟩ := hb''.of_same (.step hsecond.symm)
    exact hsame'.trans ((hconverges.rests hr').trans hsecond)

/-- **An expression added to itself** comes to the same as twice the expression, if a step leads to
what doubles alike. -/
theorem simplify_sum_self [CommutativeScalar α] {e : Expr α} (he : e.Converges)
    (hsum : (sum [e, e]).Converges) (hproduct : (product [const Scalar.two, e]).Converges)
    (h : e.simplifyStep.DoublesAlike) :
    Same (sum [e, e]).simplify (product [const Scalar.two, e]).simplify := by
  have hs := Simplify.comesTo_sum_self he.first hsum.first
  have hp := Simplify.comesTo_product_two he.first hproduct.first
  have meet {i j : Nat} (hsame : Same (simplifyStep^[i] (sum [e, e]))
      (simplifyStep^[j] (product [const Scalar.two, e]))) :
      Same (sum [e, e]).simplify (product [const Scalar.two, e]).simplify :=
    hsum.settles.simplify_same hproduct.settles hsame
  generalize e.simplifyStep = e' at h hs hp
  cases h with
  | const c => exact meet (i := 1) (j := 1) (Simplify.sum_same_of_const hs hp)
  | doublable h =>
    obtain ⟨q, hq, hr⟩ := Simplify.comesTo_like h.not_const h.not_sum hs
    have hsame := Simplify.like_same_of_doublable h hq hp
    exact meet (i := 1) (j := 2) (hr.same hproduct.second (.step hsame))
  | fixed h hnotSum =>
    rcases hconst : e'.isConst
    · rcases Simplify.fixed_doubled h hconst hnotSum hs hp with hsame | hlater
      · exact meet (i := 1) (j := 1) hsame
      · exact meet (i := 1) (j := 2) (hlater _ hproduct.second)
    · obtain ⟨c, rfl⟩ := isConst_iff_exists.mp hconst
      exact meet (i := 1) (j := 1) (Simplify.sum_same_of_const hs hp)
  | pair h hrests =>
    have hnotSum := h.collectedTerms.not_sum
    have paired {v : Expr α} (hv : v ∈ [_, _]) : Simplify.Paired v :=
      (h.child hv).paired (hnotSum v hv) (hrests v hv)
    exact meet (i := 2) (j := 2) (Simplify.pair_doubled h (paired List.mem_cons_self)
      (paired (List.mem_cons_of_mem _ List.mem_cons_self)) hs hsum.second hp hproduct.second)

end Expr

/-! ### Doubles -/

open Double (Platform)

/-- Doubles are twice themselves when they are added to themselves, if the platform changes neither
one when it is raised to a power nor what is raised to the first. -/
theorem Double.Platform.Congruent.doublingScalar {p : Platform} (hp : p.Congruent)
    (hpow : ∀ x, Scalar.Same (p.pow 1 x) 1 ∧ Scalar.Same (p.pow x 1) x) :
    DoublingScalar p.Number where
  toStandardScalar := hp.standardScalar fun x => (hpow x).1
  two_ne_zero := (Platform.number_eq p _ _).trans Double.two_ne_zero
  two_ne_one := (Platform.number_eq p _ _).trans Double.two_ne_one
  one_add_one := (Platform.number_same p _ _).mpr Double.one_add_one
  one_mul := Double.one_mul_same Double.one_eq_one
  two_mul x := by
    rw [show (Scalar.mul Scalar.two x : p.Number) = Scalar.add x x from Double.two_mul_eq x]
    exact .refl _
  negZero_add := Double.zero_add_same Double.negZero_eq_zero
  add_self_ne_zero := Double.add_self_ne_zero
  pow_one x := (hpow x).2
  negOne_ne_zero := (Platform.number_eq p _ _).trans Double.negOne_ne_zero
  negOne_ne_one := (Platform.number_eq p _ _).trans Double.negOne_ne_one
  one_not_negative := (Platform.number_lt p _ _).trans Double.one_not_negative
  neg_of_negative := Double.neg_of_negative

/-- **Adding an expression to itself and doubling it** have one canonical form. -/
theorem doubling_has_one_form (p : Platform) (hp : p.Congruent)
    (hpow : ∀ x, Scalar.Same (p.pow 1 x) 1 ∧ Scalar.Same (p.pow x 1) x) (e : Expr p.Number)
    (he : e.Converges) (hsum : (Expr.sum [e, e]).Converges)
    (hproduct : (Expr.product [.const Scalar.two, e]).Converges) (h : e.simplifyStep.DoublesAlike) :
    ((Expr.sum [e, e]).simplify == (Expr.product [.const Scalar.two, e]).simplify) = true := by
  have := hp.doublingScalar hpow
  exact Expr.simplify_sum_self he hsum hproduct h

theorem Double.Platform.unital_pow (x : Float) :
    Scalar.Same (unital.pow 1 x) 1 ∧ Scalar.Same (unital.pow x 1) x := by
  refine ⟨unital_pow_one x, ?_⟩
  have hzero : ((1 : Float) == 0) = false := rfl
  have hone : ((1 : Float) == 1) = true := rfl
  simp only [unital, sparse, hzero, hone, Bool.false_eq_true, if_false, if_true]
  split_ifs with hx
  · exact Scalar.Same.symm (Scalar.same_of_eq hx)
  · exact .refl x

/-- Three times a variable, a sum of two variables and a fraction of two, twice. -/
theorem doubling_has_one_form_three_x :
    let alike (e : Expr Platform.unital.Number) : Prop := e.Converges ∧
      (Expr.sum [e, e]).Converges ∧ (Expr.product [.const Scalar.two, e]).Converges ∧
        e.simplifyStep.DoublesAlike ∧
          ((Expr.sum [e, e]).simplify == (Expr.product [.const Scalar.two, e]).simplify) = true
    alike (.product [.const (3 : Float), .var 'x']) ∧ alike (.sum [.var 'y', .var 'x']) ∧
      alike (.fraction (.var 'x') (.var 'y')) := by
  have hvar (c : Char) (h : ((Expr.var c : Expr Platform.unital.Number).simplifyStep ==
      .var c) = true) : (Expr.var c : Expr Platform.unital.Number).Fixed :=
    .of_children h (by simp [Expr.children])
  have hx := hvar 'x' (by decide +kernel)
  have hy := hvar 'y' (by decide +kernel)
  have hcalm (c : Char) : ¬Simplify.Restless (.var c : Expr Platform.unital.Number) := by
    have hone : Scalar.eq (Scalar.add Scalar.one Scalar.one : Platform.unital.Number)
        Scalar.one = false := by decide +kernel
    rintro (h | h)
    · exact Bool.false_ne_true (hone.symm.trans h)
    · cases h
  refine ⟨?three, ?sum, ?fraction⟩
  case three =>
    have he : (Expr.product [.const (3 : Float), .var 'x'] :
        Expr Platform.unital.Number).Converges :=
      ⟨1, by decide, by decide, by decide +kernel, by decide +kernel⟩
    have hsum : (Expr.sum [.product [.const (3 : Float), .var 'x'],
        .product [.const (3 : Float), .var 'x']] : Expr Platform.unital.Number).Converges :=
      ⟨1, by decide, by decide, by decide +kernel, by decide +kernel⟩
    have hproduct : (Expr.product [.const Scalar.two,
        .product [.const (3 : Float), .var 'x']] : Expr Platform.unital.Number).Converges :=
      ⟨1, by decide, by decide, by decide +kernel, by decide +kernel⟩
    have halike := Expr.DoublesAlike.doublable (e := (Expr.product [.const (3 : Float), .var 'x'] :
        Expr Platform.unital.Number).simplifyStep)
      ⟨by decide +kernel, by decide +kernel, by decide +kernel, by decide +kernel,
        by decide +kernel⟩
    exact ⟨he, hsum, hproduct, halike, doubling_has_one_form _ Platform.unital_congruent
      Platform.unital_pow _ he hsum hproduct halike⟩
  case sum =>
    have he : (Expr.sum [.var 'y', .var 'x'] : Expr Platform.unital.Number).Converges :=
      ⟨1, by decide, by decide, by decide +kernel, by decide +kernel⟩
    have hsum : (Expr.sum [.sum [.var 'y', .var 'x'], .sum [.var 'y', .var 'x']] :
        Expr Platform.unital.Number).Converges :=
      ⟨1, by decide, by decide, by decide +kernel, by decide +kernel⟩
    have hproduct : (Expr.product [.const Scalar.two, .sum [.var 'y', .var 'x']] :
        Expr Platform.unital.Number).Converges :=
      ⟨1, by decide, by decide, by decide +kernel, by decide +kernel⟩
    have hfixed : (Expr.sum [.var 'y', .var 'x'] : Expr Platform.unital.Number).Fixed :=
      .of_children (by decide +kernel)
        (List.forall_mem_cons.mpr ⟨hy, List.forall_mem_singleton.mpr hx⟩)
    have halike := Expr.DoublesAlike.pair hfixed (List.forall_mem_cons.mpr
      ⟨fun h => absurd h (hcalm 'y'), List.forall_mem_singleton.mpr fun h => absurd h (hcalm 'x')⟩)
    exact ⟨he, hsum, hproduct, halike, doubling_has_one_form _ Platform.unital_congruent
      Platform.unital_pow _ he hsum hproduct halike⟩
  case fraction =>
    have he : (Expr.fraction (.var 'x') (.var 'y') : Expr Platform.unital.Number).Converges :=
      ⟨1, by decide, by decide, by decide +kernel, by decide +kernel⟩
    have hsum : (Expr.sum [.fraction (.var 'x') (.var 'y'), .fraction (.var 'x') (.var 'y')] :
        Expr Platform.unital.Number).Converges :=
      ⟨1, by decide, by decide, by decide +kernel, by decide +kernel⟩
    have hproduct : (Expr.product [.const Scalar.two, .fraction (.var 'x') (.var 'y')] :
        Expr Platform.unital.Number).Converges :=
      ⟨1, by decide, by decide, by decide +kernel, by decide +kernel⟩
    have halike := Expr.DoublesAlike.fixed (e := (Expr.fraction (.var 'x') (.var 'y') :
        Expr Platform.unital.Number))
      (.of_children (by decide +kernel)
        (List.forall_mem_cons.mpr ⟨hx, List.forall_mem_singleton.mpr hy⟩)) rfl
    exact ⟨he, hsum, hproduct, halike, doubling_has_one_form _ Platform.unital_congruent
      Platform.unital_pow _ he hsum hproduct halike⟩

/-- **Adding and doubling come to two forms** at sums of three terms, over which no factor is
distributed; where a fraction, a half or a sum of two is merged with itself before its parts have
come to rest; and at a sum of two terms, where what comes of twice a half has not come to rest by
the second step. -/
theorem doubling_has_two_forms :
    let apart (e : Expr Platform.unital.Number) : Prop := e.Converges ∧
      (Expr.sum [e, e]).Converges ∧ (Expr.product [.const Scalar.two, e]).Converges ∧
        ((Expr.sum [e, e]).simplify == (Expr.product [.const Scalar.two, e]).simplify) = false
    let number (x : Float) : Expr Platform.unital.Number := .const x
    -- a step takes this logarithm to the exponent as it is
    let exponent (e : Expr Platform.unital.Number) := Expr.log (number 2) (.power (number 2) e)
    apart (.sum [.var 'z', .var 'y', .var 'x']) ∧
      apart (.power (.fraction (number 2) (number 0.5)) (number (-1))) ∧
        apart (exponent (.product [number 0.5, .sum [.var 'y', number 2],
          .product [number (-2), .var 'x']])) ∧
          apart (exponent (.sum [.power (.fraction (.var 'z') (number (-0.5))) (number (-1)),
            .power (.var 'y') (number 0)])) ∧
            apart (.sum [.product [number 0.5, .var 'x', .sum [.fraction
              (.sum [.var 'z', .var 'y', .var 'x']) (.var 'x'), number 1]],
                .product [number 5e15, .var 'x']]) := by
  intro apart number exponent
  refine ⟨?three, ?fraction, ?half, ?pair, ?later⟩
  case three =>
    exact ⟨⟨1, by decide, by decide, by decide +kernel, by decide +kernel⟩,
      ⟨1, by decide, by decide, by decide +kernel, by decide +kernel⟩,
      ⟨1, by decide, by decide, by decide +kernel, by decide +kernel⟩, by decide +kernel⟩
  case fraction =>
    exact ⟨⟨3, by decide, by decide, by decide +kernel, by decide +kernel⟩,
      ⟨1, by decide, by decide, by decide +kernel, by decide +kernel⟩,
      ⟨2, by decide, by decide, by decide +kernel, by decide +kernel⟩, by decide +kernel⟩
  case half =>
    exact ⟨⟨2, by decide, by decide, by decide +kernel, by decide +kernel⟩,
      ⟨1, by decide, by decide, by decide +kernel, by decide +kernel⟩,
      ⟨1, by decide, by decide, by decide +kernel, by decide +kernel⟩, by decide +kernel⟩
  case pair =>
    exact ⟨⟨2, by decide, by decide, by decide +kernel, by decide +kernel⟩,
      ⟨1, by decide, by decide, by decide +kernel, by decide +kernel⟩,
      ⟨1, by decide, by decide, by decide +kernel, by decide +kernel⟩, by decide +kernel⟩
  case later =>
    exact ⟨⟨1, by decide, by decide, by decide +kernel, by decide +kernel⟩,
      ⟨2, by decide, by decide, by decide +kernel, by decide +kernel⟩,
      ⟨3, by decide, by decide, by decide +kernel, by decide +kernel⟩, by decide +kernel⟩

end SymbolicAlgebra
