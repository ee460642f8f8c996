import SymbolicAlgebra.Proofs.Collected.Node

/-! # Steps at fixed expressions

What a step does at a fixed sum, product, fraction or power, where the result is known to be the
same expression. A fixed expression that is not one counts: its bulk is at least two
(`Fixed.two_le_bulk`), since products of ones, quotients of ones and powers of one are folded. -/

namespace SymbolicAlgebra

open SymbolicAlgebra.Expr (Same Fixed bulk)

variable {α : Type} [Scalar α]

/-! ### Results of the rules -/

namespace Simplify

/-- The product of factors is a constant, one of the factors, the result of distributing the factors
other than one, or the result of collecting them. -/
theorem multiplyFactors_cases {solve : Solver α} {fs : List (Expr α)} {r : Expr α}
    (h : multiplyFactors solve fs = some r) :
    r.isConst = true ∨ r ∈ fs ∨ ((∀ f ∈ fs, f.isZero = false) ∧
      ((∃ ts, distribute? (Expr.ascending (fs.filter fun f => !f.isOne)) = some ts ∧
          solve (.sum ts) = some r) ∨
        multiplyPowers solve (Expr.ascending (fs.filter fun f => !f.isOne)) = some r)) := by
  unfold multiplyFactors at h
  split at h
  · rw [← Option.some.inj h]
    exact .inr (.inl List.mem_cons_self)
  · split_ifs at h with hzero
    · rw [← Option.some.inj h]
      exact .inl rfl
    · have hmem : ∀ f ∈ fs.filter fun f => !f.isOne, f ∈ fs := fun f => List.mem_of_mem_filter
      split at h
      · rw [← Option.some.inj h]
        exact .inl rfl
      · next f hone =>
        rw [← Option.some.inj h]
        exact .inr (.inl (hmem f (hone ▸ List.mem_cons_self)))
      · rw [← Option.some.inj h]
        exact .inl rfl
      · refine .inr (.inr ⟨by simpa using hzero, ?_⟩)
        simp only at h
        split at h
        · next ts hdistribute => exact .inl ⟨ts, hdistribute, h⟩
        · exact .inr h

/-- Factors are put together as a product if none belongs below the line, and else as a fraction. -/
theorem assemble_cases {solve : Solver α} {fs : List (Expr α)} {r : Expr α}
    (h : assemble solve fs = some r) :
    ((∀ f ∈ fs, isBelow f = false) ∧ r = (Expr.product fs).downgrade) ∨
      ∃ num den, r = .fraction num den := by
  unfold assemble at h
  simp only at h
  split_ifs at h with hnone hone
  · have hbelow : ∀ f ∈ fs, isBelow f = false := by
      simpa [List.filter_eq_nil_iff] using hnone
    refine .inl ⟨hbelow, ?_⟩
    have habove : (fs.filter fun e => !isBelow e) = fs :=
      List.filter_eq_self.mpr fun f hf => by simp [hbelow f hf]
    rw [← Option.some.inj h, habove]
  all_goals
    simp only [Option.bind_eq_bind, Option.bind_eq_some_iff, Option.some.injEq] at h
    obtain ⟨_, -, num, -, den, -, rfl⟩ := h
    exact .inr ⟨num, den, rfl⟩

end Simplify

/-! ### Products and sums -/

namespace Expr

theorem Same.not_of_size {a b : Expr α} (h : a.size < b.size) : ¬Same a b :=
  fun hsame => Nat.ne_of_lt h hsame.size_eq

/-- A downgraded product is no product, or it has two factors or more. -/
theorem downgrade_product_cases (fs : List (Expr α)) :
    (product fs).downgrade.isConst = true ∨ (∃ f, fs = [f] ∧ (product fs).downgrade = f) ∨
      (2 ≤ fs.length ∧ (product fs).downgrade = product fs) := by
  match fs with
  | [] => exact .inl rfl
  | [f] => exact .inr (.inl ⟨f, rfl, rfl⟩)
  | f :: g :: fs => exact .inr (.inr ⟨Nat.le_add_left 2 _, rfl⟩)

namespace Fixed

theorem power_base {b x : Expr α} (h : (power b x).Fixed) : b.Fixed := h.child List.mem_cons_self

theorem power_exponent {b x : Expr α} (h : (power b x).Fixed) : x.Fixed :=
  h.child (List.mem_cons_of_mem _ List.mem_cons_self)

theorem num {a b : Expr α} (h : (fraction a b).Fixed) : a.Fixed := h.child List.mem_cons_self

theorem den {a b : Expr α} (h : (fraction a b).Fixed) : b.Fixed :=
  h.child (List.mem_cons_of_mem _ List.mem_cons_self)

/-- Steps do not change fixed expressions one by one. -/
theorem steps {depth : Nat} {es rs : List (Expr α)} (hes : ∀ e ∈ es, e.Fixed)
    (h : (Simplify.solve depth).steps es = some rs) : List.Forall₂ Same rs es :=
  .flip (((List.forall₂_and_left es rs).mpr ⟨hes, Solver.steps_forall₂ h⟩).imp
    fun _ _ h => h.1.step h.2)

variable [CongruentScalar α]

/-- **The product of the factors of a fixed product** is the product itself. -/
theorem product_solved {fs : List (Expr α)} (h : (product fs).Fixed) :
    ∃ depth r, Simplify.multiplyFactors (Simplify.solve depth) fs = some r ∧
      Same r (product fs) := by
  obtain ⟨depth, r, hr, hsame⟩ := h.solved
  change Simplify.stepNode (Simplify.solve depth) (product fs) = some r at hr
  simp only [Simplify.stepNode, Option.bind_eq_bind, Option.bind_eq_some_iff] at hr
  obtain ⟨gs, hgs, hr⟩ := hr
  have hsteps := steps (fun f hf => h.child hf) hgs
  cases depth with
  | zero => cases hr
  | succ depth =>
    have hcongruent := Simplify.solve_congruent (depth + 1) (.product hsteps)
    rw [hr] at hcongruent
    change Option.Rel _ _ (Simplify.multiplyFactors (Simplify.solve depth) fs) at hcongruent
    generalize hresult : Simplify.multiplyFactors (Simplify.solve depth) fs = x at hcongruent
    cases hcongruent with
    | some hrel => exact ⟨depth, _, hresult, hrel.symm.trans hsame⟩

/-- **The sum of the terms of a fixed sum** is the sum itself. -/
theorem sum_solved {ts : List (Expr α)} (h : (sum ts).Fixed) :
    ∃ depth r, Simplify.addTerms (Simplify.solve depth) ts = some r ∧ Same r (sum ts) := by
  obtain ⟨depth, r, hr, hsame⟩ := h.solved
  change Simplify.stepNode (Simplify.solve depth) (sum ts) = some r at hr
  simp only [Simplify.stepNode, Option.bind_eq_bind, Option.bind_eq_some_iff] at hr
  obtain ⟨us, hus, hr⟩ := hr
  have hsteps := steps (fun t ht => h.child ht) hus
  cases depth with
  | zero => cases hr
  | succ depth =>
    have hcongruent := Simplify.solve_congruent (depth + 1) (.sum hsteps)
    rw [hr] at hcongruent
    change Option.Rel _ _ (Simplify.addTerms (Simplify.solve depth) ts) at hcongruent
    generalize hresult : Simplify.addTerms (Simplify.solve depth) ts = x at hcongruent
    cases hcongruent with
    | some hrel => exact ⟨depth, _, hresult, hrel.symm.trans hsame⟩

/-- A fixed product has a factor that is not one. -/
theorem exists_not_isOne {fs : List (Expr α)} (h : (product fs).Fixed) :
    ∃ f ∈ fs, f.isOne = false := by
  by_contra hnone
  have hones : ∀ f ∈ fs, f.isOne = true := by simpa using hnone
  have hfilter : (fs.filter fun f => !f.isOne) = [] :=
    List.filter_eq_nil_iff.mpr fun f hf => by simp [hones f hf]
  obtain ⟨depth, r, hr, hsame⟩ := h.product_solved
  unfold Simplify.multiplyFactors at hr
  split at hr
  · next f =>
    rw [← Option.some.inj hr] at hsame
    exact hsame.not_of_size (size_lt_of_mem_children List.mem_cons_self)
  · rw [hfilter] at hr
    split_ifs at hr
    · rw [← Option.some.inj hr] at hsame
      cases hsame.node
    · rw [← Option.some.inj hr] at hsame
      cases hsame.node

theorem two_le_length {fs : List (Expr α)} (h : (product fs).Fixed) : 2 ≤ fs.length := by
  obtain ⟨depth, r, hr, hsame⟩ := h.product_solved
  match fs with
  | [] =>
    rw [← Option.some.inj hr] at hsame
    cases hsame.node
  | [f] =>
    rw [← Option.some.inj hr] at hsame
    exact absurd hsame (Same.not_of_size (size_lt_of_mem_children List.mem_cons_self))
  | f :: g :: fs => exact Nat.le_add_left 2 _

/-! ### Fractions -/

/-- A fixed fraction whose denominator is a fraction has a fraction as its numerator. -/
theorem num_fraction {a c d : Expr α} (h : (fraction a (fraction c d)).Fixed) :
    ∃ x y, a = fraction x y := by
  by_contra hnone
  obtain ⟨depth, r, hr, hsame⟩ := h.solved
  change Simplify.stepFraction (Simplify.solve depth) a (fraction c d) = some r at hr
  simp only [Simplify.stepFraction, Option.bind_eq_bind, Option.bind_eq_some_iff] at hr
  obtain ⟨a', ha, b', hb, hr⟩ := hr
  have ha' := (h.num.step ha).symm.not_binary (f := .fraction) fun x y heq => hnone ⟨x, y, heq⟩
  have hb' := h.den.step hb
  cases hb'.node with
  | @binary _ c' d' _ _ hc hd =>
    rw [Simplify.divide.eq_3 _ _ _ _ ha'] at hr
    simp only [Option.bind_eq_bind, Option.bind_eq_some_iff, Option.some.injEq] at hr
    obtain ⟨_, -, _, -, den, hden, rfl⟩ := hr
    cases hsame.node with
    | binary _ _ hsame =>
      have hfixed : c'.Fixed := (h.den.same hb'.symm).num
      have hsize := ((hfixed.step hden).symm.trans hsame).size_eq
      rw [size, hc.size_eq] at hsize
      omega

end Fixed

/-! ### Bulk of fixed expressions -/

variable [StandardScalar α]

/-- One to any power is folded. -/
theorem constantPower?_one {x y : α} (h : Scalar.eq x Scalar.one = true) :
    ∃ v, Simplify.constantPower? (const x) y = some (const v) := by
  have hpow : Scalar.Agree (Scalar.pow x y) (Scalar.pow Scalar.one y) :=
    CongruentScalar.pow (Scalar.same_of_eq h) (.refl y)
  have hone := StandardScalar.one_pow y
  have hintegral : Scalar.isIntegral (Scalar.pow x y) = true := by
    rw [hpow.isIntegral_eq, CongruentScalar.isIntegral_eq hone, StandardScalar.isIntegral_one]
  have hsame := (hpow.same_of_isIntegral hintegral).trans hone
  have hfold : Simplify.foldPower? x y = some (Scalar.pow x y) := by
    simp only [Simplify.foldPower?]
    rw [hintegral, hsame.lt_eq (.refl Scalar.thousand), StandardScalar.one_lt_thousand]
    rfl
  refine ⟨Scalar.pow x y, ?_⟩
  simp [Simplify.constantPower?, constant?, hfold]

omit [StandardScalar α] in
theorem eq_const_of_isOne {e : Expr α} (h : e.isOne = true) :
    ∃ x, e = const x ∧ Scalar.eq x Scalar.one = true := by
  cases e with
  | const x => exact ⟨x, rfl, h⟩
  | _ => cases h

namespace Fixed

/-- A power of one is not fixed. -/
theorem base_not_isOne {b : Expr α} {y : α} (h : (power b (.const y)).Fixed) :
    b.isOne = false := by
  by_contra hone
  obtain ⟨x, rfl, hx⟩ := eq_const_of_isOne (Bool.not_eq_false _ ▸ hone)
  obtain ⟨depth, r, hr, hsame⟩ := h.solved
  change Simplify.stepPower (Simplify.solve depth) (.const x) (.const y) = some r at hr
  obtain ⟨v, hv⟩ := constantPower?_one (y := y) hx
  rw [Simplify.stepPower.eq_5 _ (.const x) y (by simp) (by simp) (by simp), hv] at hr
  rw [← Option.some.inj hr] at hsame
  cases hsame.node

/-- A quotient of ones is not fixed. -/
theorem not_ones {a b : Expr α} (h : (fraction a b).Fixed) :
    a.isOne = false ∨ b.isOne = false := by
  by_contra hones
  simp only [not_or, Bool.not_eq_false] at hones
  obtain ⟨x, rfl, hx⟩ := eq_const_of_isOne hones.1
  obtain ⟨y, rfl, hy⟩ := eq_const_of_isOne hones.2
  obtain ⟨depth, r, hr, hsame⟩ := h.solved
  change Simplify.stepFraction (Simplify.solve depth) (.const x) (.const y) = some r at hr
  simp only [Simplify.stepFraction, Option.bind_eq_bind, Option.bind_eq_some_iff] at hr
  obtain ⟨a', ha, b', hb, hr⟩ := hr
  obtain rfl := (constants_solve depth).step ha
  obtain rfl := (constants_solve depth).step hb
  have hdiv : Scalar.Agree (Scalar.div x y) (Scalar.div Scalar.one Scalar.one) :=
    CongruentScalar.div (Scalar.same_of_eq hx) (Scalar.same_of_eq hy)
  have hintegral : Scalar.isIntegral (Scalar.div x y) = true := by
    rw [hdiv.isIntegral_eq, CongruentScalar.isIntegral_eq StandardScalar.one_div_one,
      StandardScalar.isIntegral_one]
  rw [Simplify.divide.eq_4, if_pos hintegral] at hr
  rw [← Option.some.inj hr] at hsame
  cases hsame.node

/-- **A fixed expression that is not one counts.** -/
theorem two_le_bulk {e : Expr α} (h : e.Fixed) (hone : e.isOne = false) : 2 ≤ e.bulk := by
  induction hsize : e.size using Nat.strong_induction_on generalizing e with
  | _ size ih =>
    have hchild : ∀ a ∈ e.children, a.isOne = false → 2 ≤ a.bulk := fun a ha hone =>
      ih a.size (hsize ▸ size_lt_of_mem_children ha) (h.child ha) hone rfl
    match e, h, hone, hchild with
    | .const x, _, hone, _ => exact (bulk_const_of_ne hone).ge
    | .var _, _, _, _ | .unary _ _, _, _, _ | .log _ _, _, _, _ | .mod _ _, _, _, _
    | .min _, _, _, _ | .max _, _, _, _ =>
      rw [bulk]
    | .sum ts, _, _, _ =>
      rw [bulk_sum]
      omega
    | .product fs, h, _, hchild =>
      obtain ⟨f, hf, hone⟩ := h.exists_not_isOne
      rw [bulk_product]
      exact (hchild f hf hone).trans (Simplify.bulk_le_prod hf)
    | .fraction a b, h, _, hchild =>
      rw [bulk_fraction]
      rcases h.not_ones with ha | hb
      · exact (hchild a List.mem_cons_self ha).trans (Nat.le_mul_of_pos_right _ (bulk_pos b))
      · exact (hchild b (List.mem_cons_of_mem _ List.mem_cons_self) hb).trans
          (Nat.le_mul_of_pos_left _ (bulk_pos a))
    | .power b x, h, _, hchild =>
      rw [bulk_power]
      by_cases hconst : x.isConst = true
      · obtain ⟨y, rfl⟩ := isConst_iff_exists.mp hconst
        exact (hchild b List.mem_cons_self h.base_not_isOne).trans
          (Nat.le_mul_of_pos_right _ (Nat.two_pow_pos _))
      · have hdegree : x.degree = x.atomSize + 1 := if_neg hconst
        exact (two_le_two_pow (by omega)).trans (Nat.le_mul_of_pos_left _ (bulk_pos b))

end Fixed

end Expr

end SymbolicAlgebra
