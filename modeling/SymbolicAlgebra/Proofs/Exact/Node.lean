import SymbolicAlgebra.Proofs.Exact.Product

/-! # Single nodes keep their value

The rules of fractions and powers on rational expressions, and with them one step at any node
(`stepNode_hasValue`). The rules move whole exponents from a power to its parts: from a fraction to
both sides, from a product to its factors, and from a power to its own exponent. The conditions on
the bases come along, because a fraction, product or power that is not zero has no part that is. -/

namespace SymbolicAlgebra.Simplify

variable {ρ : Char → ℚ} [ExactScalar] {solve : Solver ℚ} (hs : Exact ρ solve)
include hs

/-! ### Fractions -/

theorem multiplyReciprocal_hasValue {a b r : Expr ℚ} {x y : ℚ} (ha : HasValue ρ a x)
    (hb : HasValue ρ b y) (hy : y ≠ 0) (h : multiplyReciprocal solve a b = some r) :
    HasValue ρ r (x / y) := by
  simp only [multiplyReciprocal, Option.bind_eq_bind, Option.bind_eq_some_iff] at h
  obtain ⟨inverse, hinverse, h⟩ := h
  rw [div_eq_mul_inv]
  exact hs.product (.pair ha (hs.step (hb.recip hy) hinverse)) h

theorem divide_hasValue {a b r : Expr ℚ} {x y : ℚ} (ha : HasValue ρ a x) (hb : HasValue ρ b y)
    (hy : y ≠ 0) (h : divide solve a b = some r) : HasValue ρ r (x / y) := by
  unfold divide at h
  split at h
  · next n m c d =>
    simp only [Option.bind_eq_bind, Option.bind_eq_some_iff, Option.some.injEq] at h
    obtain ⟨n', hn', d', hd', num, hnum, m', hm', c', hc', den, hden, rfl⟩ := h
    obtain ⟨x₁, x₂, hn, hm, hx₂, rfl⟩ := ha.of_fraction
    obtain ⟨y₁, y₂, hc, hd, hy₂, rfl⟩ := hb.of_fraction
    have hy₁ : y₁ ≠ 0 := (div_ne_zero_iff.mp hy).1
    rw [div_div_div_eq]
    exact (hs.product (.pair (hs.step hn hn') (hs.step hd hd')) hnum).fraction
      (hs.product (.pair (hs.step hm hm') (hs.step hc hc')) hden) (mul_ne_zero hx₂ hy₁)
  · next n m hden =>
    simp only [Option.bind_eq_bind, Option.bind_eq_some_iff, Option.some.injEq] at h
    obtain ⟨n', hn', m', hm', den, hden, rfl⟩ := h
    obtain ⟨x₁, x₂, hn, hm, hx₂, rfl⟩ := ha.of_fraction
    rw [div_div]
    exact (hs.step hn hn').fraction (hs.product (.pair (hs.step hm hm') hb) hden)
      (mul_ne_zero hx₂ hy)
  · next c d hnum =>
    simp only [Option.bind_eq_bind, Option.bind_eq_some_iff, Option.some.injEq] at h
    obtain ⟨d', hd', num, hnum, c', hc', rfl⟩ := h
    obtain ⟨y₁, y₂, hc, hd, hy₂, rfl⟩ := hb.of_fraction
    rw [div_div_eq_mul_div]
    exact (hs.product (.pair ha (hs.step hd hd')) hnum).fraction (hs.step hc hc')
      (div_ne_zero_iff.mp hy).1
  · next c d =>
    split_ifs at h
    · have hc : c = x := by simpa using ha.value_eq
      have hd : d = y := by simpa using hb.value_eq
      rw [← Option.some.inj h, ExactScalar.div_eq, hc, hd]
      exact .const ρ _
    · exact multiplyReciprocal_hasValue hs ha hb hy h
  · exact multiplyReciprocal_hasValue hs ha hb hy h

theorem stepFraction_hasValue {a b r : Expr ℚ} {x y : ℚ} (ha : HasValue ρ a x)
    (hb : HasValue ρ b y) (hy : y ≠ 0) (h : stepFraction solve a b = some r) :
    HasValue ρ r (x / y) := by
  simp only [stepFraction, Option.bind_eq_bind, Option.bind_eq_some_iff] at h
  obtain ⟨a', ha', b', hb', h⟩ := h
  exact divide_hasValue hs (hs.step ha ha') (hs.step hb hb') hy h

/-! ### Powers -/

omit hs in
theorem constantPower?_hasValue {b r : Expr ℚ} {n : ℤ} {x : ℚ} (hb : HasValue ρ b x)
    (h : constantPower? b (n : ℚ) = some r) : HasValue ρ r (x ^ n) := by
  unfold constantPower? at h
  split at h
  · next v hv =>
    obtain ⟨c, hc, hfold⟩ := Option.bind_eq_some_iff.mp hv
    obtain rfl := constant?_eq_some_iff.mp hc
    have hcx : c = x := by simpa using hb.value_eq
    simp only [foldPower?] at hfold
    split_ifs at hfold
    rw [← Option.some.inj h, ← Option.some.inj hfold, ExactScalar.pow_eq, hcx]
    exact .const ρ _
  · simp only [ExactScalar.eq_eq, ExactScalar.zero_eq, ExactScalar.one_eq, decide_eq_true_eq,
      Int.cast_eq_zero, Int.cast_eq_one] at h
    split_ifs at h with hzero hone
    · rw [← Option.some.inj h, hzero, zpow_zero]
      exact .const ρ 1
    · rw [← Option.some.inj h, hone, zpow_one]
      exact hb

omit [ExactScalar] in
theorem stepParts_power_hasValue {b r : Expr ℚ} {n : ℤ} {x : ℚ} (hb : HasValue ρ b x)
    (hn : n < 0 → x ≠ 0) (h : stepParts solve .power b (.const (n : ℚ)) = some r) :
    HasValue ρ r (x ^ n) := by
  simp only [stepParts, Option.bind_eq_bind, Option.bind_eq_some_iff, Option.some.injEq] at h
  obtain ⟨b', hb', e', he', rfl⟩ := h
  rw [hs.step_const he']
  exact (hs.step hb hb').power hn

omit hs [ExactScalar] in
/-- A power of a product is the product of the powers of its factors. -/
theorem multipliesTo_powers {n : ℤ} : ∀ {fs : List (Expr ℚ)} {x : ℚ}, MultipliesTo ρ fs x →
    (n < 0 → x ≠ 0) → MultipliesTo ρ (fs.map fun f => .power f (.const (n : ℚ))) (x ^ n)
  | [], x, hfs, _ => by
    rw [← hfs.prod_eq]
    simpa using MultipliesTo.nil
  | f :: fs, x, hfs, hx => by
    obtain ⟨a, b, ha, hb, rfl⟩ := MultipliesTo.cons_iff.mp hfs
    rw [mul_zpow]
    exact .cons (ha.power fun hn => left_ne_zero_of_mul (hx hn))
      (multipliesTo_powers hb fun hn => right_ne_zero_of_mul (hx hn))

theorem stepPower_hasValue {b r : Expr ℚ} {n : ℤ} {x : ℚ} (hb : HasValue ρ b x)
    (hn : n < 0 → x ≠ 0) (h : stepPower solve b (.const (n : ℚ)) = some r) :
    HasValue ρ r (x ^ n) := by
  unfold stepPower at h
  split at h
  · next num den =>
    obtain ⟨y, z, hy, hz, hz0, rfl⟩ := hb.of_fraction
    rw [← Option.some.inj h, div_zpow]
    exact (hy.power fun hneg => (div_ne_zero_iff.mp (hn hneg)).1).fraction
      (hz.power fun _ => hz0) (zpow_ne_zero n hz0)
  · next inner innerExponent =>
    simp only [Option.bind_eq_bind, Option.bind_eq_some_iff, Option.some.injEq] at h
    obtain ⟨e, he, rfl⟩ := h
    obtain ⟨m, y, rfl, hy, hm, rfl⟩ := hb.of_power
    rw [hs.mul_consts he, ← Int.cast_mul, ← zpow_mul, mul_comm n m]
    refine hy.power fun hneg hy0 => ?_
    -- a zero base has no negative inner exponent, nor a negative outer one if the inner is positive
    have hm' : 0 ≤ m := by
      by_contra hlt
      exact hm (by omega) hy0
    obtain ⟨hmpos, hnneg⟩ : 0 < m ∧ n < 0 := by
      rcases Int.mul_neg_iff.mp hneg with h | h
      · exact h
      · omega
    exact hn hnneg (by rw [hy0, zero_zpow m (by omega)])
  · exact hs.product (multipliesTo_powers (hasValue_product_iff.mp hb) hn) h
  · simp only at h
    split at h
    · next he => exact constantPower?_hasValue hb (by rw [he, h])
    · exact stepParts_power_hasValue hs hb hn h

/-! ### Any node -/

/-- **One step keeps the value of a node.** -/
theorem stepNode_hasValue {e r : Expr ℚ} {x : ℚ} (he : HasValue ρ e x)
    (h : stepNode solve e = some r) : HasValue ρ r x := by
  obtain ⟨hd, rfl⟩ := he
  cases hd with
  | const c =>
    rw [← Option.some.inj h]
    exact Defined.hasValue (.const c)
  | var c =>
    rw [← Option.some.inj h]
    exact Defined.hasValue (.var c)
  | sum hts =>
    simp only [stepNode, Option.bind_eq_bind, Option.bind_eq_some_iff] at h
    obtain ⟨us, hus, h⟩ := h
    exact hs.sum (hs.steps_sum (hasValue_sum_iff.mp (Defined.hasValue (.sum hts))) hus) h
  | product hfs =>
    simp only [stepNode, Option.bind_eq_bind, Option.bind_eq_some_iff] at h
    obtain ⟨gs, hgs, h⟩ := h
    exact hs.product
      (hs.steps_product (hasValue_product_iff.mp (Defined.hasValue (.product hfs))) hgs) h
  | fraction ha hb hne =>
    rw [Expr.value_fraction_rat]
    exact stepFraction_hasValue hs ha.hasValue hb.hasValue hne h
  | power n hb hn =>
    rw [Expr.value_power_rat]
    exact stepPower_hasValue hs hb.hasValue hn h

end SymbolicAlgebra.Simplify
