import SymbolicAlgebra.Proofs.Reading.Product
import SymbolicAlgebra.Proofs.Real.Value

/-! # Powers and logarithms of real numbers

The rules of powers and logarithms keep values in the real numbers. An exponent is moved to the
parts of a product, a fraction or a power only if it is whole, since none of these is steady. Where
powers of one base are put together their exponents add up: to a whole number if the base is not
steady, and to a constant if the base is zero.

`KeepsReal` is what a solver has to do for the subtasks. It is sound for the reading in the real
numbers (`KeepsReal.sound`). -/

namespace SymbolicAlgebra

open SymbolicAlgebra.Expr (Admissible IsWhole)

variable {b : Bindings EReal}

/-- **A solver that keeps values in the real numbers**, and steady nodes steady. -/
structure KeepsReal (b : Bindings EReal) (solve : Solver EReal) : Prop where
  constants : KeepsConstants solve
  steady {e r : Expr EReal} : e.isSteady = true → solve (.step e) = some r → r.isSteady = true
  step {e r : Expr EReal} {x : ℝ} : RealValue b e x → solve (.step e) = some r → RealValue b r x
  sum {ts : List (Expr EReal)} {r : Expr EReal} {x : ℝ} : SumReads (RealValue b) ts x →
    solve (.sum ts) = some r → RealValue b r x
  product {fs : List (Expr EReal)} {r : Expr EReal} {x : ℝ} : ProductReads (RealValue b) fs x →
    solve (.product fs) = some r → RealValue b r x

/-! ### Exponents -/

theorem Expr.IsWhole.isConst {e : Expr EReal} (h : e.IsWhole) : e.isConst = true := by
  obtain ⟨n, rfl⟩ := h
  rfl

theorem RealValue.whole_iff {e : Expr EReal} {y : ℝ} (h : RealValue b e y)
    (hconst : e.isConst = true) : e.IsWhole ↔ ∃ n : ℤ, y = n := by
  obtain ⟨c, rfl⟩ := Expr.isConst_iff_exists.mp hconst
  obtain rfl := const_iff.mp h
  simp [IsWhole]

/-- Powers of one base multiply to the power with the sum of the exponents. -/
theorem RealValue.powers {a : Expr EReal} {x : ℝ} (ha : RealValue b a x) :
    ∀ {es : List (Expr EReal)} {zs : List ℝ},
      List.Forall₂ (RealValue b) (es.map fun e => .power a e) zs →
      ∃ ys, List.Forall₂ (RealValue b) es ys ∧ (∀ e ∈ es, Admissible a e) ∧
        (x = 0 → ∀ e ∈ es, e.isConst = true) ∧ realPower? x ys.sum = some zs.prod
  | [], zs, h => by
    cases h
    exact ⟨[], .nil, by simp, by simp, realPower?_zero x⟩
  | e :: es, zs, h => by
    rw [List.map_cons] at h
    cases h with
    | cons hz hzs =>
      obtain ⟨x', y, hx', hy, hadmissible, hzero, hz⟩ := power_iff.mp hz
      obtain rfl := hx'.unique ha
      obtain ⟨ys, hys, hall, hzeros, hpower⟩ := powers ha hzs
      refine ⟨y :: ys, .cons hy hys, List.forall_mem_cons.mpr ⟨hadmissible, hall⟩,
        fun h0 => List.forall_mem_cons.mpr ⟨hzero h0, hzeros h0⟩, ?_⟩
      rw [List.sum_cons, List.prod_cons]
      exact realPower?_add hz hpower

theorem whole_sum {es : List (Expr EReal)} {ys : List ℝ} (h : List.Forall₂ (RealValue b) es ys)
    (hes : ∀ e ∈ es, e.IsWhole) : ∃ n : ℤ, ys.sum = n := by
  induction h with
  | nil => exact ⟨0, by simp⟩
  | cons hy _ ih =>
    obtain ⟨he, hes⟩ := List.forall_mem_cons.mp hes
    obtain ⟨n, hn⟩ := (hy.whole_iff he.isConst).mp he
    obtain ⟨m, hm⟩ := ih hes
    exact ⟨n + m, by rw [List.sum_cons, hn, hm, Int.cast_add]⟩

variable [RealScalar] {solve : Solver EReal} (hs : KeepsReal b solve)

include hs

/-- **A solver that keeps values is sound for them.** -/
theorem KeepsReal.sound : Sound (RealValue b) solve where
  step := hs.step
  sum := hs.sum
  product := hs.product
  negate {a e r z} h hz hr := by
    obtain ⟨x, y, hx, hy, hadmissible, hzero, hpower⟩ := RealValue.power_iff.mp h
    have hminus : RealValue b (.const Scalar.negOne) (-1) :=
      RealValue.const_iff.mpr RealScalar.negOne_eq
    have hvalue : RealValue b r (-y) := by
      have hvalue := hs.product (.pair hminus hy) hr
      rwa [neg_one_mul] at hvalue
    have hconst (he : e.isConst = true) : r.isConst = true :=
      hs.constants.product (by simpa [Expr.isConst, Expr.constant?] using he) hr
    refine RealValue.power_iff.mpr ⟨x, -y, hx, hvalue, ?_, fun h0 => hconst (hzero h0),
      realPower?_neg hpower hz⟩
    refine hadmissible.imp id fun he => ?_
    obtain ⟨n, hn⟩ := (hy.whole_iff he.isConst).mp he
    exact (hvalue.whole_iff (hconst he.isConst)).mpr ⟨-n, by rw [hn, Int.cast_neg]⟩
  collect {a r es z} hne h hr := by
    obtain ⟨zs, hzs, rfl⟩ := h
    obtain ⟨x, ha⟩ : ∃ x, RealValue b a x := by
      obtain ⟨e, es, rfl⟩ := List.exists_cons_of_ne_nil hne
      cases hzs with
      | cons hz _ =>
        obtain ⟨x, -, hx, -⟩ := RealValue.power_iff.mp hz
        exact ⟨x, hx⟩
    obtain ⟨ys, hys, hadmissible, hzero, hpower⟩ := ha.powers hzs
    have hvalue := hs.sum ⟨ys, hys, rfl⟩ hr
    refine RealValue.power_iff.mpr ⟨x, ys.sum, ha, hvalue, ?_,
      fun h0 => hs.constants.sum (hzero h0) hr, hpower⟩
    by_cases hsteady : a.isSteady = true
    · exact .inl hsteady
    · have hwhole : ∀ e ∈ es, e.IsWhole := fun e he => (hadmissible e he).resolve_left hsteady
      have hconst := hs.constants.sum (fun e he => (hwhole e he).isConst) hr
      exact .inr ((hvalue.whole_iff hconst).mpr (whole_sum hys hwhole))

namespace Simplify

/-! ### Powers -/

omit hs in
theorem constantPower?_real {a r : Expr EReal} {c : EReal} {x y z : ℝ} (ha : RealValue b a x)
    (hc : RealValue b (.const c) y) (hz : realPower? x y = some z)
    (h : constantPower? a c = some r) : RealValue b r z := by
  have hV := reading_real b
  unfold constantPower? at h
  split at h
  · next v hv =>
    obtain ⟨k, hk, hfold⟩ := Option.bind_eq_some_iff.mp hv
    obtain rfl : a = .const k := by
      cases a with
      | const k' => exact congrArg _ (Option.some.inj hk)
      | _ => cases hk
    simp only [foldPower?] at hfold
    split_ifs at hfold
    rw [← Option.some.inj h, ← Option.some.inj hfold, RealValue.const_iff.mp ha,
      RealValue.const_iff.mp hc, RealScalar.pow_eq hz]
    exact .const z
  · split_ifs at h with hzero hone
    · rw [hV.eq hc hV.zero hzero, realPower?_zero] at hz
      rw [← Option.some.inj h, ← Option.some.inj hz]
      exact hV.one
    · rw [hV.eq hc hV.one hone, realPower?_one] at hz
      rwa [← Option.some.inj h, ← Option.some.inj hz]

omit [RealScalar] in
/-- The parts of a power may be taken one step further. -/
theorem stepParts_power_real {a p r : Expr EReal} {z : ℝ} (hz : RealValue b (.power a p) z)
    (h : stepParts solve .power a p = some r) : RealValue b r z := by
  obtain ⟨x, y, hx, hy, hadmissible, hzero, hpower⟩ := RealValue.power_iff.mp hz
  simp only [stepParts, Option.bind_eq_bind, Option.bind_eq_some_iff, Option.some.injEq] at h
  obtain ⟨a', ha', p', hp', rfl⟩ := h
  have hconst (hp : p.isConst = true) : p' = p := by
    obtain ⟨c, rfl⟩ := Expr.isConst_iff_exists.mp hp
    exact hs.constants.step hp'
  refine RealValue.power_iff.mpr ⟨x, y, hs.step hx ha', hs.step hy hp', ?_, fun h0 => ?_, hpower⟩
  · rcases hadmissible with hsteady | hwhole
    · exact .inl (hs.steady hsteady ha')
    · rw [hconst hwhole.isConst]
      exact .inr hwhole
  · rw [hconst (hzero h0)]
    exact hzero h0

omit hs [RealScalar] in
/-- A whole power of a product is the product of the powers of its factors. -/
theorem whole_powers {n : ℤ} : ∀ {fs : List (Expr EReal)} {x : ℝ},
    ProductReads (RealValue b) fs x → (n < 0 → x ≠ 0) →
      ProductReads (RealValue b) (fs.map fun f => .power f (.const ((n : ℝ) : EReal))) (x ^ n)
  | [], x, hfs, _ => by
    rw [ProductReads.nil_iff.mp hfs, one_zpow]
    exact .nil
  | f :: fs, x, hfs, hx => by
    obtain ⟨y, z, hy, hz, rfl⟩ := ProductReads.cons_iff.mp hfs
    rw [mul_zpow]
    exact .cons (hy.whole_power n fun hn => left_ne_zero_of_mul (hx hn))
      (whole_powers hz fun hn => right_ne_zero_of_mul (hx hn))

omit [RealScalar] in
/-- A whole power of a power. -/
theorem power_power_real {a e p r : Expr EReal} {n : ℤ} {x z : ℝ} (ha : RealValue b (.power a e) x)
    (hp : p = .const ((n : ℝ) : EReal)) (hz : realPower? x n = some z)
    (h : solve (.product [p, e]) = some r) : RealValue b (.power a r) z := by
  subst hp
  obtain ⟨u, y, hu, hy, hadmissible, hzero, hx⟩ := RealValue.power_iff.mp ha
  have hvalue := hs.product (.pair (.const n) hy) h
  have hconst (he : e.isConst = true) : r.isConst = true :=
    hs.constants.product (by simpa [Expr.isConst, Expr.constant?] using he) h
  refine RealValue.power_iff.mpr ⟨u, n * y, hu, hvalue, ?_, fun h0 => hconst (hzero h0),
    realPower?_mul hx hz⟩
  refine hadmissible.imp id fun he => ?_
  obtain ⟨m, hm⟩ := (hy.whole_iff he.isConst).mp he
  exact (hvalue.whole_iff (hconst he.isConst)).mpr ⟨n * m, by rw [hm, Int.cast_mul]⟩

omit hs [RealScalar] in
/-- `b ^ log_b x = x`. -/
theorem power_log_real {a c : Expr EReal} {z : ℝ} (h : RealValue b (.power a (.log a c)) z) :
    RealValue b c z := by
  obtain ⟨x, y, hx, hy, -, -, hz⟩ := RealValue.power_iff.mp h
  obtain ⟨x', v, hx', hv, hlog⟩ := (RealValue.binary_iff (by decide)).mp hy
  obtain rfl := hx'.unique hx
  obtain ⟨⟨hpos, hne, hvpos⟩, rfl⟩ : (0 < x' ∧ x' ≠ 1 ∧ 0 < v) ∧ Real.log v / Real.log x' = y := by
    simpa [Binary.real?] using hlog
  have hpower : x' ^ (Real.log v / Real.log x') = v := by
    rw [Real.rpow_def_of_pos hpos,
      mul_div_cancel₀ _ (Real.log_ne_zero_of_pos_of_ne_one hpos hne), Real.exp_log hvpos]
  rw [realPower?, if_pos hpos, hpower, Option.some.injEq] at hz
  exact hz ▸ hv

/-- **One step at a power keeps its value.** -/
theorem stepPower_real {a p r : Expr EReal} {z : ℝ} (hz : RealValue b (.power a p) z)
    (h : stepPower solve a p = some r) : RealValue b r z := by
  have hV := reading_real b
  obtain ⟨x, y, hx, hy, hadmissible, hzero, hpower⟩ := RealValue.power_iff.mp hz
  unfold stepPower at h
  split at h
  · next num den =>
    obtain ⟨n, rfl⟩ := hadmissible.resolve_left Bool.false_ne_true
    obtain rfl : y = n := by exact_mod_cast (RealValue.const_iff.mp hy).symm
    obtain ⟨hn, rfl⟩ := realPower?_int.mp hpower
    obtain ⟨u, v, hu, hv, hv0, rfl⟩ := hV.fraction_iff.mp hx
    rw [← Option.some.inj h, div_zpow]
    exact hV.fraction (hu.whole_power n fun hneg => (div_ne_zero_iff.mp (hn hneg)).1)
      (hv.whole_power n fun _ => hv0) (zpow_ne_zero n hv0)
  · next inner innerExponent =>
    obtain ⟨n, rfl⟩ := hadmissible.resolve_left Bool.false_ne_true
    obtain rfl : y = n := by exact_mod_cast (RealValue.const_iff.mp hy).symm
    simp only [Option.bind_eq_bind, Option.bind_eq_some_iff, Option.some.injEq] at h
    obtain ⟨e, he, rfl⟩ := h
    exact power_power_real hs hx rfl hpower he
  · next factors =>
    obtain ⟨n, rfl⟩ := hadmissible.resolve_left Bool.false_ne_true
    obtain rfl : y = n := by exact_mod_cast (RealValue.const_iff.mp hy).symm
    obtain ⟨hn, rfl⟩ := realPower?_int.mp hpower
    exact hs.product (whole_powers (hV.product_iff.mp hx) hn) h
  · split at h
    · next logBase arg =>
      split_ifs at h with heq
      · obtain rfl := hV.eq_of_beq heq
        rw [← Option.some.inj h]
        exact power_log_real hz
      · exact stepParts_power_real hs hz h
    · split at h
      · next he => exact constantPower?_real hx hy hpower (by rw [he, h])
      · exact stepParts_power_real hs hz h
    · exact stepParts_power_real hs hz h

/-! ### Logarithms -/

omit [RealScalar] in
/-- The parts of a logarithm or remainder may be taken one step further. -/
theorem stepParts_real {f : Binary} (hf : f ≠ .power) {a c r : Expr EReal} {z : ℝ}
    (hz : RealValue b (.binary f a c) z) (h : stepParts solve f a c = some r) :
    RealValue b r z := by
  obtain ⟨x, y, hx, hy, hvalue⟩ := (RealValue.binary_iff hf).mp hz
  simp only [stepParts, Option.bind_eq_bind, Option.bind_eq_some_iff, Option.some.injEq] at h
  obtain ⟨a', ha', c', hc', rfl⟩ := h
  exact (RealValue.binary_iff hf).mpr ⟨x, y, hs.step hx ha', hs.step hy hc', hvalue⟩

/-- **One step at a logarithm keeps its value.** -/
theorem stepLog_real {a c r : Expr EReal} {z : ℝ} (hz : RealValue b (.log a c) z)
    (h : stepLog solve a c = some r) : RealValue b r z := by
  have hV := reading_real b
  obtain ⟨x, y, hx, hy, hvalue⟩ := (RealValue.binary_iff (by decide)).mp hz
  obtain ⟨⟨hpos, hne, hypos⟩, rfl⟩ : (0 < x ∧ x ≠ 1 ∧ 0 < y) ∧ Real.log y / Real.log x = z := by
    simpa [Binary.real?] using hvalue
  have hlog := Real.log_ne_zero_of_pos_of_ne_one hpos hne
  unfold stepLog at h
  split_ifs at h with heq
  · obtain rfl := hV.eq_of_beq heq
    rw [← Option.some.inj h, hy.unique hx, div_self hlog]
    exact hV.one
  · split at h
    · next powerBase exponent =>
      split_ifs at h with hbase
      · obtain rfl := hV.eq_of_beq hbase
        obtain ⟨x', w, hx', hw, -, -, hpower⟩ := RealValue.power_iff.mp hy
        obtain rfl := hx'.unique hx
        rw [realPower?, if_pos hpos, Option.some.injEq] at hpower
        rw [← Option.some.inj h, ← hpower, Real.log_rpow hpos, mul_div_cancel_right₀ _ hlog]
        exact hw
      · exact stepParts_real hs (by decide) hz h
    · split_ifs at h with hone
      · rw [← Option.some.inj h, hV.eq_one_of_isOne hy hone, Real.log_one, zero_div]
        exact hV.zero
      · exact stepParts_real hs (by decide) hz h

end Simplify

end SymbolicAlgebra
