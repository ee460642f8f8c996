import SymbolicAlgebra.Proofs.Collected.Product

/-! # Steps shrink

A step at a tame expression gives a tame expression that is no bulkier, and so the solvers of all
depths are bounded (`bounded_solve`). Atoms stay as they are. A power with an exponent that is not
constant has a fixed base that is not compound, so it is not distributed over factors; if it is
replaced by the argument of a logarithm, it loses bulk. -/

namespace SymbolicAlgebra.Simplify

open SymbolicAlgebra.Expr (Same TameBelow Within bulk)

variable {α : Type} [Scalar α] [StandardScalar α]

/-! ### Folding -/

theorem bulk_one : (Expr.const (Scalar.one : α)).bulk = 1 := by
  rw [Expr.bulk, StandardScalar.one_eq_one, if_pos rfl]

theorem bulk_const_of_same {x : α} (h : Scalar.Same x Scalar.one) : (Expr.const x).bulk = 1 :=
  (Same.bulk_eq (Same.of_numbers h)).trans bulk_one

omit [StandardScalar α] in
/-- A number with the bulk of one is one. -/
theorem same_of_bulk {x : α} (h : (Expr.const x).bulk < 2) : Scalar.Same x Scalar.one := by
  refine Scalar.same_of_eq (Bool.not_eq_false _ ▸ fun hne => ?_)
  rw [Expr.bulk_const_of_ne hne] at h
  omega

theorem bulk_quotient_le {x y : α} (h : Scalar.isIntegral (Scalar.div x y) = true) :
    (Expr.const (Scalar.div x y)).bulk ≤ (Expr.const x).bulk * (Expr.const y).bulk := by
  have hx := Expr.bulk_pos (Expr.const x)
  have hy := Expr.bulk_pos (Expr.const y)
  have htwo := Expr.bulk_const_le (Scalar.div x y)
  by_cases hone : (Expr.const x).bulk < 2 ∧ (Expr.const y).bulk < 2
  · have hdiv := (CongruentScalar.div (same_of_bulk hone.1) (same_of_bulk hone.2)).same_of_isIntegral h
    rw [bulk_const_of_same (hdiv.trans StandardScalar.one_div_one)]
    exact Nat.mul_pos hx hy
  · rcases not_and_or.mp hone with hx' | hy'
    · calc _ ≤ 2 := htwo
        _ ≤ (Expr.const x).bulk := by omega
        _ ≤ _ := Nat.le_mul_of_pos_right _ hy
    · calc _ ≤ 2 := htwo
        _ ≤ (Expr.const y).bulk := by omega
        _ ≤ _ := Nat.le_mul_of_pos_left _ hx

theorem foldPower?_bulk {x y v : α} (h : foldPower? x y = some v) :
    (Expr.const v).bulk ≤ (Expr.const x).bulk := by
  simp only [foldPower?] at h
  split_ifs at h with hfold
  obtain rfl := Option.some.inj h
  have htwo := Expr.bulk_const_le (Scalar.pow x y)
  by_cases hone : (Expr.const x).bulk < 2
  · have hpow := (CongruentScalar.pow (same_of_bulk hone) (.refl y)).same_of_isIntegral
      (Bool.and_eq_true_iff.mp hfold).1
    rw [bulk_const_of_same (hpow.trans (StandardScalar.one_pow y))]
    exact Expr.bulk_pos _
  · omega

theorem constantPower?_shrinks {n a : Nat} {b r : Expr α} {x : α} (hb : Within n a b)
    (h : constantPower? b x = some r) : Within n a r ∧ r.bulk ≤ b.bulk := by
  unfold constantPower? at h
  split at h
  · next v hfold =>
    obtain ⟨k, hk, hfold⟩ := Option.bind_eq_some_iff.mp hfold
    rw [← Option.some.inj h]
    cases b with
    | const y =>
      obtain rfl := Option.some.inj hk
      exact ⟨.const v, foldPower?_bulk hfold⟩
    | _ => cases hk
  · split_ifs at h
    · rw [← Option.some.inj h, bulk_one]
      exact ⟨.const _, Expr.bulk_pos b⟩
    · rw [← Option.some.inj h]
      exact ⟨hb, Nat.le_refl _⟩

/-! ### Fractions -/

variable {n a : Nat} {solve : Solver α} (hs : Bounded n solve)

section Fractions
include hs

omit [StandardScalar α] in
theorem multiplyReciprocal_shrinks {x y r : Expr α} (hx : Within n a x) (hy : Within n a y)
    (h : multiplyReciprocal solve x y = some r) : Within n a r ∧ r.bulk ≤ x.bulk * y.bulk := by
  simp only [multiplyReciprocal, Option.bind_eq_bind, Option.bind_eq_some_iff] at h
  obtain ⟨inverse, hinverse, h⟩ := h
  obtain ⟨hw, hle⟩ := hs.step (hy.powerConst Scalar.negOne) hinverse
  obtain ⟨hr, hle'⟩ := hs.product_pair hx hw h
  rw [Expr.bulk_power_const] at hle
  exact ⟨hr, hle'.trans (Nat.mul_le_mul_left _ hle)⟩

theorem divide_shrinks {x y r : Expr α} (hx : Within n a x) (hy : Within n a y)
    (h : divide solve x y = some r) : Within n a r ∧ r.bulk ≤ x.bulk * y.bulk := by
  unfold divide at h
  split at h
  · next b c d e =>
    simp only [Option.bind_eq_bind, Option.bind_eq_some_iff, Option.some.injEq] at h
    obtain ⟨b', hb', e', he', num, hnum, c', hc', d', hd', den, hden, rfl⟩ := h
    obtain ⟨hb, hc⟩ := Within.fraction_iff.mp hx
    obtain ⟨hd, he⟩ := Within.fraction_iff.mp hy
    obtain ⟨hb, hble⟩ := hs.step hb hb'
    obtain ⟨hc, hcle⟩ := hs.step hc hc'
    obtain ⟨hd, hdle⟩ := hs.step hd hd'
    obtain ⟨he, hele⟩ := hs.step he he'
    obtain ⟨hnum, hnumle⟩ := hs.product_pair hb he hnum
    obtain ⟨hden, hdenle⟩ := hs.product_pair hc hd hden
    refine ⟨Within.fraction_iff.mpr ⟨hnum, hden⟩, ?_⟩
    rw [Expr.bulk_fraction, Expr.bulk_fraction, Expr.bulk_fraction]
    calc num.bulk * den.bulk ≤ (b.bulk * e.bulk) * (c.bulk * d.bulk) :=
          Nat.mul_le_mul (hnumle.trans (Nat.mul_le_mul hble hele))
            (hdenle.trans (Nat.mul_le_mul hcle hdle))
      _ = b.bulk * c.bulk * (d.bulk * e.bulk) := by ring
  · next b c _ =>
    simp only [Option.bind_eq_bind, Option.bind_eq_some_iff, Option.some.injEq] at h
    obtain ⟨b', hb', c', hc', den, hden, rfl⟩ := h
    obtain ⟨hb, hc⟩ := Within.fraction_iff.mp hx
    obtain ⟨hb, hble⟩ := hs.step hb hb'
    obtain ⟨hc, hcle⟩ := hs.step hc hc'
    obtain ⟨hden, hdenle⟩ := hs.product_pair hc hy hden
    refine ⟨Within.fraction_iff.mpr ⟨hb, hden⟩, ?_⟩
    rw [Expr.bulk_fraction, Expr.bulk_fraction, Nat.mul_assoc]
    exact Nat.mul_le_mul hble (hdenle.trans (Nat.mul_le_mul_right _ hcle))
  · next d e _ =>
    simp only [Option.bind_eq_bind, Option.bind_eq_some_iff, Option.some.injEq] at h
    obtain ⟨e', he', num, hnum, d', hd', rfl⟩ := h
    obtain ⟨hd, he⟩ := Within.fraction_iff.mp hy
    obtain ⟨hd, hdle⟩ := hs.step hd hd'
    obtain ⟨he, hele⟩ := hs.step he he'
    obtain ⟨hnum, hnumle⟩ := hs.product_pair hx he hnum
    refine ⟨Within.fraction_iff.mpr ⟨hnum, hd⟩, ?_⟩
    rw [Expr.bulk_fraction, Expr.bulk_fraction]
    calc num.bulk * d'.bulk ≤ (x.bulk * e.bulk) * d.bulk :=
          Nat.mul_le_mul (hnumle.trans (Nat.mul_le_mul_left _ hele)) hdle
      _ = x.bulk * (d.bulk * e.bulk) := by ring
  · split_ifs at h with hintegral
    · rw [← Option.some.inj h]
      exact ⟨.const _, bulk_quotient_le hintegral⟩
    · exact multiplyReciprocal_shrinks hs hx hy h
  · exact multiplyReciprocal_shrinks hs hx hy h

theorem stepFraction_shrinks {x y r : Expr α} (hx : Within n a x) (hy : Within n a y)
    (h : stepFraction solve x y = some r) : Within n a r ∧ r.bulk ≤ x.bulk * y.bulk := by
  simp only [stepFraction, Option.bind_eq_bind, Option.bind_eq_some_iff] at h
  obtain ⟨x', hx', y', hy', h⟩ := h
  obtain ⟨hx, hxle⟩ := hs.step hx hx'
  obtain ⟨hy, hyle⟩ := hs.step hy hy'
  obtain ⟨hr, hle⟩ := divide_shrinks hs hx hy h
  exact ⟨hr, hle.trans (Nat.mul_le_mul hxle hyle)⟩

end Fractions

/-! ### Powers -/

section Powers
include hs

theorem stepParts_shrinks {b e r : Expr α} (h : Within n a (.power b e))
    (hr : stepParts solve .power b e = some r) :
    Within n a r ∧ r.bulk ≤ (Expr.power b e).bulk := by
  simp only [stepParts, Option.bind_eq_bind, Option.bind_eq_some_iff, Option.some.injEq] at hr
  obtain ⟨b', hb', e', he', rfl⟩ := hr
  obtain ⟨hbsize, hesize⟩ := Nat.max_le.mp h.atomSize_le
  rcases h.tame.of_power with ⟨hb, x, rfl⟩ | ⟨hb, hsize, hbase, he⟩
  · obtain rfl := hs.constants.step he'
    obtain ⟨hb, hle⟩ := hs.step ⟨hb, hbsize⟩ hb'
    rw [Expr.bulk_power_const, Expr.bulk_power_const]
    exact ⟨hb.powerConst x, hle⟩
  · have hsame := (hs.fixed hb hb').symm
    obtain ⟨⟨he'w, he'size⟩, -⟩ := hs.step (Within.self he) he'
    have hconst (hconst : e.isConst = true) : e'.isConst = true := by
      obtain ⟨c, rfl⟩ := Expr.isConst_iff_exists.mp hconst
      rw [hs.constants.step he']
      exact hconst
    refine ⟨⟨.power (hb.same hsame) (hsame.size_eq ▸ hsize) (hsame.isCompound_eq ▸ hbase) he'w,
      Nat.max_le.mpr ⟨hsame.atomSize_eq ▸ hbsize, he'size.trans hesize⟩⟩, ?_⟩
    rw [Expr.bulk_power, Expr.bulk_power, hsame.bulk_eq]
    exact Nat.mul_le_mul_left _
      (Nat.pow_le_pow_right (by omega) (Expr.degree_le he'size hconst))

variable (hn : TameBelow α n)
include hn

omit [StandardScalar α] in
/-- A power of a power. -/
theorem powerPower_shrinks {b x e product : Expr α} (h : Within n a (.power (.power b x) e))
    (hproduct : solve (.product [e, x]) = some product) :
    Within n a (.power b product) ∧
      (Expr.power b product).bulk ≤ (Expr.power (.power b x) e).bulk := by
  have hbase := h.base hn
  obtain ⟨hw, hconst, hdegree⟩ := hs.product_degree h.exponent hbase.exponent hproduct
  refine ⟨?_, ?_⟩
  · rcases h.tame.of_power with ⟨-, c, rfl⟩ | ⟨hb, hsize, -, -⟩
    · exact hbase.with_exponent hw (hconst rfl)
    · have hchild : b ∈ (Expr.power b x).children := List.mem_cons_self
      have hlt := Expr.size_lt_of_mem_children hchild
      exact ⟨.power (hb.child hchild) (by omega)
          (Expr.isCompound_of_isBase (hn.base hb hsize)) hw.tame,
        Nat.max_le.mpr ⟨(Nat.max_le.mp hbase.atomSize_le).1, hw.atomSize_le⟩⟩
  · rw [Expr.bulk_power, Expr.bulk_power, Expr.bulk_power, Nat.mul_assoc, ← Nat.pow_add]
    exact Nat.mul_le_mul_left _ (Nat.pow_le_pow_right (by omega) (by omega))

omit [StandardScalar α] hs hn in
/-- The logarithm in an exponent is an atom, so its argument is fixed. -/
theorem log_arg_fixed {b c arg : Expr α} (h : Within n a (.power b (.log c arg))) :
    arg.Fixed ∧ arg.size < (Expr.log c arg).size ∧ (Expr.log c arg).size < n := by
  obtain ⟨hfixed, hsize⟩ := h.tame.exponent.of_isAtom rfl
  have hchild : arg ∈ (Expr.log c arg).children := List.mem_cons_of_mem _ List.mem_cons_self
  exact ⟨hfixed.child hchild, Expr.size_lt_of_mem_children hchild, hsize⟩

omit [StandardScalar α] hs in
/-- The argument of a logarithm in place of a power loses bulk. -/
theorem log_arg_shrinks {b c arg : Expr α} (h : Within n a (.power b (.log c arg))) :
    Within n a arg ∧ arg.bulk < (Expr.power b (.log c arg)).bulk := by
  obtain ⟨hfixed, hlt, hsize⟩ := log_arg_fixed h
  have hatom : (Expr.log c arg).size ≤ a := h.exponent.atomSize_le
  refine ⟨⟨hn.tame hfixed (by omega), (Expr.atomSize_le_size arg).trans (by omega)⟩, ?_⟩
  have hdegree : (Expr.log c arg).degree = (Expr.log c arg).size + 1 := rfl
  calc arg.bulk ≤ 2 ^ arg.size := Expr.bulk_le_two_pow arg
    _ < 2 ^ (Expr.log c arg).degree := Nat.pow_lt_pow_right (by omega) (by omega)
    _ ≤ b.bulk * 2 ^ (Expr.log c arg).degree := Nat.le_mul_of_pos_left _ (Expr.bulk_pos b)
    _ = _ := (Expr.bulk_power _ _).symm

theorem stepPower_shrinks {b e r : Expr α} (h : Within n a (.power b e))
    (hr : stepPower solve b e = some r) :
    Within n a r ∧ r.bulk ≤ (Expr.power b e).bulk := by
  have hbase := h.base hn
  unfold stepPower at hr
  split at hr
  · rcases h.tame.of_power with ⟨-, x, rfl⟩ | ⟨-, -, hcompound, -⟩
    · obtain ⟨hnum, hden⟩ := Within.fraction_iff.mp hbase
      rw [← Option.some.inj hr, Expr.bulk_fraction, Expr.bulk_power_const, Expr.bulk_power_const,
        Expr.bulk_power_const, Expr.bulk_fraction]
      exact ⟨Within.fraction_iff.mpr ⟨hnum.powerConst x, hden.powerConst x⟩, Nat.le_refl _⟩
    · cases hcompound
  · simp only [Option.bind_eq_bind, Option.bind_eq_some_iff, Option.some.injEq] at hr
    obtain ⟨product, hproduct, rfl⟩ := hr
    exact powerPower_shrinks hs hn h hproduct
  · next fs =>
    rcases h.tame.of_power with ⟨-, x, rfl⟩ | ⟨-, -, hcompound, -⟩
    · have hfactors := Within.product_iff.mp hbase
      have hprod : ((fs.map fun f => Expr.power f (.const x)).map bulk).prod =
          (Expr.power (.product fs) (.const x)).bulk := by
        rw [List.map_map, Expr.bulk_power_const, Expr.bulk_product]
        exact congrArg List.prod (List.map_congr_left fun f _ => Expr.bulk_power_const f x)
      rw [← hprod]
      exact hs.product (List.forall_mem_map.mpr fun f hf => (hfactors f hf).powerConst x) hr
    · cases hcompound
  · split at hr
    · split_ifs at hr
      · rw [← Option.some.inj hr]
        obtain ⟨harg, hlt⟩ := log_arg_shrinks hn h
        exact ⟨harg, hlt.le⟩
      · exact stepParts_shrinks hs h hr
    · split at hr
      · next hconst =>
        rw [← Option.some.inj hr, Expr.bulk_power_const]
        exact constantPower?_shrinks hbase hconst
      · exact stepParts_shrinks hs h hr
    · exact stepParts_shrinks hs h hr

end Powers

/-! ### Any node -/

/-- **A step at a tame expression** that is no atom. -/
theorem stepNode_shrinks (hs : Bounded n solve) (hn : TameBelow α n) {e r : Expr α}
    (he : Within n a e) (hatom : e.isAtom = false) (h : stepNode solve e = some r) :
    Within n a r ∧ r.bulk ≤ e.bulk := by
  match e with
  | .const x | .var c =>
    rw [← Option.some.inj h]
    exact ⟨he, Nat.le_refl _⟩
  | .sum ts =>
    simp only [stepNode, Option.bind_eq_bind, Option.bind_eq_some_iff] at h
    obtain ⟨us, hus, h⟩ := h
    have hsteps := hs.steps (Within.sum_iff.mp he) hus
    obtain ⟨hr, hle⟩ := hs.sum (Shrinks.within hsteps) h
    rw [Expr.bulk_sum]
    exact ⟨hr, hle.trans (Nat.add_le_add_right (Shrinks.sum_le hsteps) 2)⟩
  | .product fs =>
    simp only [stepNode, Option.bind_eq_bind, Option.bind_eq_some_iff] at h
    obtain ⟨gs, hgs, h⟩ := h
    have hsteps := hs.steps (Within.product_iff.mp he) hgs
    obtain ⟨hr, hle⟩ := hs.product (Shrinks.within hsteps) h
    rw [Expr.bulk_product]
    exact ⟨hr, hle.trans (Shrinks.prod_le hsteps)⟩
  | .fraction x y =>
    obtain ⟨hx, hy⟩ := Within.fraction_iff.mp he
    rw [Expr.bulk_fraction]
    exact stepFraction_shrinks hs hx hy h
  | .power b x => exact stepPower_shrinks hs hn he h
  | .unary f x => cases hatom
  | .log b x | .mod b x => cases hatom
  | .min as | .max as => cases hatom

/-- **The solvers of all depths are bounded.** -/
theorem bounded_solve (hn : TameBelow α n) : ∀ depth : Nat, Bounded n (Simplify.solve (α := α) depth)
  | 0 =>
    { constants := constants_solve 0
      fixed := fun _ h => nomatch h
      step := fun _ h => nomatch h
      sum := fun _ h => nomatch h
      product := fun _ h => nomatch h }
  | depth + 1 =>
    { constants := constants_solve (depth + 1)
      fixed := fun he h => he.step h
      step := fun {a e r} he h => by
        rcases hatom : e.isAtom
        · exact stepNode_shrinks (bounded_solve hn depth) hn he hatom h
        · have hsame := (he.tame.of_isAtom hatom).1.step h
          exact ⟨he.same hsame.symm, hsame.bulk_eq.le⟩
      sum := addTerms_shrinks (bounded_solve hn depth)
      product := multiplyFactors_shrinks (bounded_solve hn depth) }

end SymbolicAlgebra.Simplify
