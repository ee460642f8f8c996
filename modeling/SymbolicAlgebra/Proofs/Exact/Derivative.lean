import SymbolicAlgebra.Derivative
import SymbolicAlgebra.Proofs.Exact.Simplify

/-! # Derivatives by dual numbers

A dual number `x + y ε`, with `ε ^ 2 = 0`, carries a value and how fast it moves. Read at the point
where one variable moves with speed one and the others rest, an expression has the dual value
`x + y ε` with its value as `x` and its *slope* as `y`. The rules of differentiation give
expressions for the slope: one lemma a rule, for rational expressions, and from them the theorem
`derivative_hasValue_slope` for whole expressions. -/

namespace SymbolicAlgebra

open TrivSqZeroExt (fst snd inl)

variable {ρ : Char → ℚ} {v : Char}

/-! ### Dual values -/

/-- The point `ρ` with the variable `v` moving with speed one and the other variables at rest. -/
def moving (ρ : Char → ℚ) (v : Char) : Char → DualNumber ℚ :=
  fun c => inl (ρ c) + if c = v then DualNumber.eps else 0

/-- How fast the value of an expression moves with the variable `v`: the coefficient of `ε` in its
dual value. -/
def slope (ρ : Char → ℚ) (v : Char) (e : Expr ℚ) : ℚ := snd (e.value (moving ρ v))

theorem fst_list_sum (xs : List (DualNumber ℚ)) : fst xs.sum = (xs.map fst).sum :=
  map_list_sum (TrivSqZeroExt.fstHom ℚ ℚ ℚ) xs

theorem fst_list_prod (xs : List (DualNumber ℚ)) : fst xs.prod = (xs.map fst).prod :=
  map_list_prod (TrivSqZeroExt.fstHom ℚ ℚ ℚ) xs

theorem fst_wholePower (x : DualNumber ℚ) (n : ℤ) : fst (wholePower x n) = fst x ^ n := by
  cases n with
  | ofNat n => rw [wholePower, TrivSqZeroExt.fst_pow, Int.ofNat_eq_natCast, zpow_natCast]
  | negSucc n => rw [wholePower, TrivSqZeroExt.fst_inv, TrivSqZeroExt.fst_pow, zpow_negSucc]

/-- **The power rule for dual numbers.** At the exponent zero the slope is zero, whatever the
power with the exponent minus one is. -/
theorem snd_wholePower (x : DualNumber ℚ) {n : ℤ} (hn : n < 0 → fst x ≠ 0) :
    snd (wholePower x n) = n * snd x * fst x ^ (n - 1) := by
  cases n with
  | ofNat n =>
    cases n with
    | zero => simp [wholePower]
    | succ n =>
      have hexp : Int.ofNat (n + 1) - 1 = (n : ℤ) := by simp
      rw [wholePower, TrivSqZeroExt.snd_pow, hexp, zpow_natCast]
      simp only [Nat.pred_succ, nsmul_eq_mul, smul_eq_mul, Int.ofNat_eq_natCast]
      push_cast
      ring
  | negSucc n =>
    have hx : fst x ≠ 0 := hn (Int.negSucc_lt_zero n)
    have hexp : Int.negSucc n - 1 = -((n + 2 : ℕ) : ℤ) := by
      rw [Int.negSucc_eq]
      push_cast
      ring
    rw [wholePower, TrivSqZeroExt.snd_inv, TrivSqZeroExt.fst_pow, TrivSqZeroExt.snd_pow, hexp,
      zpow_neg, zpow_natCast]
    simp only [Nat.pred_succ, nsmul_eq_mul, smul_eq_mul, MulOpposite.smul_eq_mul_unop,
      MulOpposite.unop_op]
    field_simp
    push_cast
    ring

/-- **The dual value moves away from the value.** -/
theorem fst_value_moving {e : Expr ℚ} (he : Defined ρ e) :
    fst (e.value (moving ρ v)) = e.value ρ := by
  induction he with
  | const x => rw [Expr.value_const, TrivSqZeroExt.algebraMap_eq_inl]; simp
  | var c => simp [moving, apply_ite fst]
  | sum _ ih =>
    rw [Expr.value_sum, Expr.value_sum, fst_list_sum, List.map_map]
    exact congrArg List.sum (List.map_congr_left ih)
  | product _ ih =>
    rw [Expr.value_product, Expr.value_product, fst_list_prod, List.map_map]
    exact congrArg List.prod (List.map_congr_left ih)
  | fraction _ _ _ iha ihb =>
    rw [Expr.value_fraction, Expr.value_fraction, TrivSqZeroExt.fst_mul, TrivSqZeroExt.fst_inv,
      iha, ihb]
  | power n _ _ ih =>
    rw [Expr.value_power, Expr.value_power_rat, fst_wholePower, ih]

/-! ### Slopes -/

theorem slope_const (x : ℚ) : slope ρ v (.const x) = 0 := by
  rw [slope, Expr.value_const, TrivSqZeroExt.algebraMap_eq_inl, TrivSqZeroExt.snd_inl]

theorem slope_var (c : Char) : slope ρ v (.var c) = if c = v then 1 else 0 := by
  simp [slope, moving, apply_ite snd]

theorem slope_sum (ts : List (Expr ℚ)) : slope ρ v (.sum ts) = (ts.map (slope ρ v)).sum := by
  rw [slope, Expr.value_sum]
  induction ts with
  | nil => rfl
  | cons t ts ih => rw [List.map_cons, List.sum_cons, TrivSqZeroExt.snd_add, ih]; rfl

theorem slope_product_nil : slope ρ v (.product []) = 0 := by simp [slope]

theorem slope_product_cons {f : Expr ℚ} {fs : List (Expr ℚ)} (hf : Defined ρ f)
    (hfs : ∀ g ∈ fs, Defined ρ g) :
    slope ρ v (.product (f :: fs)) =
      slope ρ v f * (fs.map (Expr.value ρ)).prod + f.value ρ * slope ρ v (.product fs) := by
  have hfst := fst_value_moving (v := v) (Defined.product hfs)
  rw [Expr.value_product, Expr.value_product] at hfst
  rw [slope, Expr.value_product, List.map_cons, List.prod_cons, DualNumber.snd_mul,
    fst_value_moving hf, hfst, add_comm, slope, slope, Expr.value_product]

theorem slope_fraction {a b : Expr ℚ} (ha : Defined ρ a) (hb : Defined ρ b) (h : b.value ρ ≠ 0) :
    slope ρ v (.fraction a b) =
      (slope ρ v a * b.value ρ - a.value ρ * slope ρ v b) / b.value ρ ^ 2 := by
  rw [slope, Expr.value_fraction, DualNumber.snd_mul, TrivSqZeroExt.fst_inv, TrivSqZeroExt.snd_inv,
    fst_value_moving ha, fst_value_moving hb, slope, slope]
  simp only [smul_eq_mul, MulOpposite.smul_eq_mul_unop, MulOpposite.unop_op]
  field_simp
  ring

theorem slope_power {b : Expr ℚ} {n : ℤ} (hb : Defined ρ b) (hn : n < 0 → b.value ρ ≠ 0) :
    slope ρ v (.power b (.const n)) = n * slope ρ v b * b.value ρ ^ (n - 1) := by
  have hfst := fst_value_moving (v := v) hb
  rw [slope, Expr.value_power, snd_wholePower _ (by rwa [hfst]), hfst, slope]

/-! ### Rules -/

section Rules
variable [ExactScalar]

/-- A product with the constant zero in front is zero, whether or not its factors are defined. -/
theorem buildProduct_zero (f : Expr ℚ) (fs : List (Expr ℚ)) :
    Expr.buildProduct (.const 0 :: f :: fs) = .const 0 := by
  obtain ⟨depth, hdepth⟩ := Simplify.fuelFor_eq_succ (.product (.const 0 :: f :: fs))
  have hzero : (Expr.const 0 :: f :: fs).any Expr.isZero = true := by
    rw [List.any_cons, isZero_iff.mpr rfl, Bool.true_or]
  rw [Expr.buildProduct, Simplify.run, hdepth, Simplify.solve, Simplify.perform,
    Simplify.multiplyFactors, if_pos hzero, ExactScalar.zero_eq, Option.getD_some]
  simp

omit [ExactScalar] in
/-- **The product rule**: the products with one factor replaced by its derivative add up to the
slope of the product. -/
theorem variations_sumsTo : ∀ {fs ds : List (Expr ℚ)}, (∀ f ∈ fs, Defined ρ f) →
    List.Forall₂ (fun f d => HasValue ρ d (slope ρ v f)) fs ds →
    ∃ xs, List.Forall₂ (MultipliesTo ρ) (Derivative.variations fs ds) xs ∧
      xs.sum = slope ρ v (.product fs)
  | [], [], _, .nil => ⟨[], .nil, slope_product_nil.symm⟩
  | f :: fs, d :: ds, hfs, .cons hd hds => by
    obtain ⟨hf, hrest⟩ := List.forall_mem_cons.mp hfs
    obtain ⟨xs, hxs, hsum⟩ := variations_sumsTo hrest hds
    refine ⟨slope ρ v f * (fs.map (Expr.value ρ)).prod :: xs.map (f.value ρ * ·),
      .cons (.cons hd ⟨hrest, rfl⟩) ?_, ?_⟩
    · rw [List.forall₂_map_left_iff, List.forall₂_map_right_iff]
      exact hxs.imp fun _ _ h => .cons hf.hasValue h
    · rw [List.sum_cons, List.sum_map_mul_left, List.map_id', hsum, slope_product_cons hf hrest]

theorem buildProducts_sumsTo : ∀ {ls : List (List (Expr ℚ))} {xs : List ℚ},
    List.Forall₂ (MultipliesTo ρ) ls xs → SumsTo ρ (ls.map Expr.buildProduct) xs.sum
  | [], [], .nil => .nil
  | _ :: _, _ :: _, .cons h hs => by
    rw [List.map_cons, List.sum_cons]
    exact .cons (buildProduct_hasValue h) (buildProducts_sumsTo hs)

theorem ofProduct_hasValue {fs ds : List (Expr ℚ)} (hfs : ∀ f ∈ fs, Defined ρ f)
    (hds : List.Forall₂ (fun f d => HasValue ρ d (slope ρ v f)) fs ds) :
    HasValue ρ (Derivative.ofProduct fs ds) (slope ρ v (.product fs)) := by
  unfold Derivative.ofProduct
  split
  · next k f dk d =>
    obtain ⟨_, hd⟩ := List.forall₂_cons.mp hds
    obtain ⟨hd, _⟩ := List.forall₂_cons.mp hd
    have hf : Defined ρ f := hfs f (by simp)
    have hslope : slope ρ v (.product [.const k, f]) = k * slope ρ v f := by
      rw [slope_product_cons (.const k) (by simpa using hf), slope_const,
        slope_product_cons hf (by simp), slope_product_nil]
      simp
    rw [hslope]
    exact buildProduct_hasValue (.pair (.const ρ k) hd)
  · obtain ⟨xs, hxs, hsum⟩ := variations_sumsTo hfs hds
    rw [← hsum]
    exact buildSum_hasValue (buildProducts_sumsTo hxs)

theorem ofFraction_hasValue {a b da db : Expr ℚ} (ha : Defined ρ a) (hb : Defined ρ b)
    (hne : b.value ρ ≠ 0) (hda : HasValue ρ da (slope ρ v a)) (hdb : HasValue ρ db (slope ρ v b)) :
    HasValue ρ (Derivative.ofFraction a da b db) (slope ρ v (.fraction a b)) := by
  have hfirst := buildProduct_hasValue (.pair hda hb.hasValue)
  have hsecond := buildProduct_hasValue (.cons (.const ρ (-1)) (.pair ha.hasValue hdb))
  have hnum := buildSum_hasValue (.cons hfirst (SumsTo.singleton_iff.mpr hsecond))
  have hden := hb.hasValue.power (n := 2) (by omega)
  have htwo : (Scalar.two : ℚ) = ((2 : ℤ) : ℚ) := by simp
  rw [slope_fraction ha hb hne, sub_eq_add_neg, ← neg_one_mul (a.value ρ * _),
    Derivative.ofFraction, ExactScalar.negOne_eq, htwo]
  exact hnum.fraction hden (zpow_ne_zero 2 hne)

theorem ofConstantPower_hasValue {b db : Expr ℚ} {n : ℤ} (hb : Defined ρ b)
    (hn : n < 0 → b.value ρ ≠ 0) (hdb : HasValue ρ db (slope ρ v b)) :
    HasValue ρ (Derivative.ofConstantPower b db n) (slope ρ v (.power b (.const n))) := by
  rw [slope_power hb hn, Derivative.ofConstantPower]
  by_cases hzero : n = 0
  · -- the power with the exponent minus one may be undefined here
    rw [hzero, Int.cast_zero, buildProduct_zero, zero_mul, zero_mul]
    exact .const ρ 0
  · have hpower : HasValue ρ (.power b (.const (Scalar.add (n : ℚ) Scalar.negOne)))
        (b.value ρ ^ (n - 1)) := by
      have hexp : Scalar.add (n : ℚ) Scalar.negOne = ((n - 1 : ℤ) : ℚ) := by
        rw [ExactScalar.add_eq, ExactScalar.negOne_eq]
        push_cast
        ring
      rw [hexp]
      exact hb.hasValue.power fun h => hn (by omega)
    rw [mul_assoc]
    exact buildProduct_hasValue (.cons (.const ρ _) (.pair hdb hpower))

omit [ExactScalar] in
theorem slope_power_const (c : ℚ) {n : ℤ} (hn : n < 0 → c ≠ 0) :
    slope ρ v (.power (.const c) (.const n)) = 0 := by
  rw [slope_power (.const c) (by simpa using hn), slope_const, mul_zero, zero_mul]

/-! ### Whole expressions -/

theorem derivativeList_forall₂ : ∀ {ts : List (Expr ℚ)},
    (∀ t ∈ ts, ∃ d, t.derivative v = .ok d ∧ HasValue ρ d (slope ρ v t)) →
    ∃ ds, Expr.derivativeList v ts = .ok ds ∧
      List.Forall₂ (fun t d => HasValue ρ d (slope ρ v t)) ts ds
  | [], _ => ⟨[], rfl, .nil⟩
  | t :: ts, h => by
    obtain ⟨⟨d, hd, hv⟩, hrest⟩ := List.forall_mem_cons.mp h
    obtain ⟨ds, hds, hvs⟩ := derivativeList_forall₂ hrest
    exact ⟨d :: ds, by rw [Expr.derivativeList, hd, hds]; rfl, .cons hv hvs⟩

omit [ExactScalar] in
theorem slopes_sumsTo : ∀ {ts ds : List (Expr ℚ)},
    List.Forall₂ (fun t d => HasValue ρ d (slope ρ v t)) ts ds →
    SumsTo ρ ds (slope ρ v (.sum ts))
  | [], [], .nil => by
    rw [slope_sum]
    exact .nil
  | t :: ts, d :: ds, .cons hd hds => by
    have hrest := slopes_sumsTo hds
    rw [slope_sum] at hrest ⊢
    exact .cons hd hrest

theorem derivative_power {b db : Expr ℚ} {n : ℤ} (hb : Defined ρ b) (hn : n < 0 → b.value ρ ≠ 0)
    (hderiv : b.derivative v = .ok db) (hdb : HasValue ρ db (slope ρ v b)) :
    ∃ d, (Expr.power b (.const n)).derivative v = .ok d ∧
      HasValue ρ d (slope ρ v (.power b (.const n))) := by
  rcases hc : b.constant? with _ | c
  · refine ⟨_, ?_, ofConstantPower_hasValue hb hn hdb⟩
    have hexp : (Expr.const (n : ℚ)).constant? = some (n : ℚ) := rfl
    rw [Expr.derivative, hc, hexp]
    simp only [hderiv]
    rfl
  · obtain rfl := constant?_eq_some_iff.mp hc
    refine ⟨_, rfl, ?_⟩
    rw [slope_power_const c (by simpa using hn), ExactScalar.zero_eq]
    exact .const ρ 0

/-- **The derivative of a rational expression has its slope as value.** Where an expression is
defined, it has a derivative by every variable, the derivative is defined there too, and its value
is the coefficient of `ε` in the dual value of the expression. -/
theorem derivative_hasValue_slope (ρ : Char → ℚ) (v : Char) (e : Expr ℚ) (he : Defined ρ e) :
    ∃ d, e.derivative v = .ok d ∧ HasValue ρ d (slope ρ v e) := by
  induction he with
  | const x =>
    refine ⟨_, rfl, ?_⟩
    rw [slope_const, ExactScalar.zero_eq]
    exact .const ρ 0
  | var c =>
    refine ⟨_, rfl, ?_⟩
    rw [slope_var, ExactScalar.zero_eq, ExactScalar.one_eq]
    exact .const ρ _
  | sum _ ih =>
    obtain ⟨ds, hds, hvs⟩ := derivativeList_forall₂ ih
    exact ⟨_, by rw [Expr.derivative, hds]; rfl, buildSum_hasValue (slopes_sumsTo hvs)⟩
  | product hfs ih =>
    obtain ⟨ds, hds, hvs⟩ := derivativeList_forall₂ ih
    exact ⟨_, by rw [Expr.derivative, hds]; rfl, ofProduct_hasValue hfs hvs⟩
  | fraction ha hb hne iha ihb =>
    obtain ⟨da, hda, hva⟩ := iha
    obtain ⟨db, hdb, hvb⟩ := ihb
    exact ⟨_, by rw [Expr.derivative, hda, hdb]; rfl, ofFraction_hasValue ha hb hne hva hvb⟩
  | power n hb hn ih =>
    obtain ⟨db, hdb, hvb⟩ := ih
    exact derivative_power hb hn hdb hvb

end Rules

/-- The derivative of `x y ^ -1 + x ^ 0` by `x` has the value `1/4` at `x = 0` and `y = 4`. -/
theorem derivative_hasValue_slope_zero_four :
    let ρ : Char → ℚ := fun c => if c = 'x' then 0 else 4
    let e : Expr ℚ := .sum
      [.product [.var 'x', .power (.var 'y') (.const (-1 : ℤ))],
        .power (.var 'x') (.const (0 : ℤ))]
    ∃ d, @Expr.derivative ℚ rationals.toScalar 'x' e = .ok d ∧ HasValue ρ d (1 / 4) := by
  intro ρ e
  have hx : HasValue ρ (.var 'x') 0 := ⟨.var _, by simp [ρ]⟩
  have hy : HasValue ρ (.var 'y') 4 := ⟨.var _, by simp [ρ]⟩
  have hinv := hy.power (n := -1) (by norm_num)
  have hone := hx.power (n := 0) (by norm_num)
  have he : HasValue ρ e _ := hasValue_sum_iff.mpr (.cons
    (hasValue_product_iff.mpr (.pair hx hinv)) (SumsTo.singleton_iff.mpr hone))
  have hslope : slope ρ 'x' e = 1 / 4 := by
    rw [slope_sum, List.map_cons, List.map_singleton,
      slope_product_cons hx.isDefined (by simpa using hinv.isDefined),
      slope_power hx.isDefined (by norm_num), hx.value_eq, slope_var, List.map_singleton,
      List.prod_singleton, hinv.value_eq]
    norm_num
  rw [← hslope]
  exact @derivative_hasValue_slope rationals ρ 'x' e he.isDefined

end SymbolicAlgebra
