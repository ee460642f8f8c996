import SymbolicAlgebra.Proofs.Exact.List

/-! # Sums keep their value

Flattening, adding the constants and collecting like terms all keep what a list of terms adds up
to, and so the sum of terms has that value (`addTerms_hasValue`). A group of like terms stands for
the product of its coefficient and its factors. Terms that are all constants add up to a constant
(`addTerms_consts`). -/

namespace SymbolicAlgebra.Simplify

variable {ρ : Char → ℚ}

/-! ### Flattening -/

theorem sumsTo_flatten :
    (∀ (e : Expr ℚ) (x : ℚ), HasValue ρ e x → SumsTo ρ (termsOf e) x) ∧
      ∀ (ts : List (Expr ℚ)) (x : ℚ), SumsTo ρ ts x → SumsTo ρ (termsOfList ts) x := by
  refine termsOf.mutual_induct _ _ ?sum ?other ?nil ?cons
  case sum =>
    intro ts ih x h
    rw [termsOf]
    exact ih x (hasValue_sum_iff.mp h)
  case other =>
    intro e he x h
    rw [termsOf.eq_2 e he]
    exact SumsTo.singleton_iff.mpr h
  case nil =>
    intro x h
    rwa [termsOfList]
  case cons =>
    intro t ts iht ihts x h
    obtain ⟨a, b, ht, hts, rfl⟩ := SumsTo.cons_iff.mp h
    rw [termsOfList]
    exact .append (iht a ht) (ihts b hts)

theorem termsOfList_consts : ∀ {ts : List (Expr ℚ)}, (∀ t ∈ ts, t.isConst = true) →
    termsOfList ts = ts
  | [], _ => rfl
  | t :: ts, h => by
    obtain ⟨c, rfl⟩ := isConst_iff.mp (h t List.mem_cons_self)
    rw [termsOfList, termsOfList_consts fun u hu => h u (List.mem_cons_of_mem _ hu)]
    rfl

/-! ### Constants -/

theorem nonConstants_const (c : ℚ) (es : List (Expr ℚ)) :
    nonConstants (.const c :: es) = nonConstants es := rfl

theorem constantsOf_const (c : ℚ) (es : List (Expr ℚ)) :
    constantsOf (.const c :: es) = c :: constantsOf es := rfl

theorem nonConstants_other {e : Expr ℚ} (h : ¬e.isConst = true) (es : List (Expr ℚ)) :
    nonConstants (e :: es) = e :: nonConstants es := by
  simp [nonConstants, h]

theorem constantsOf_other {e : Expr ℚ} (h : ¬e.isConst = true) (es : List (Expr ℚ)) :
    constantsOf (e :: es) = constantsOf es := by
  have hnone : e.constant? = none := by simpa [Expr.isConst] using h
  rw [constantsOf, constantsOf, List.filterMap_cons_none hnone]

/-- The constants of a list add up apart from the other terms. -/
theorem sumsTo_nonConstants : ∀ {ts : List (Expr ℚ)} {x : ℚ}, SumsTo ρ ts x →
    SumsTo ρ (nonConstants ts) (x - (constantsOf ts).sum)
  | [], x, h => by simpa [nonConstants, constantsOf] using h
  | t :: ts, x, h => by
    obtain ⟨a, b, ht, hts, rfl⟩ := SumsTo.cons_iff.mp h
    have ih := sumsTo_nonConstants hts
    by_cases hc : t.isConst = true
    · obtain ⟨c, rfl⟩ := isConst_iff.mp hc
      have hca : c = a := by simpa using ht.value_eq
      rw [nonConstants_const, constantsOf_const, List.sum_cons, hca, add_sub_add_left_eq_sub]
      exact ih
    · rw [nonConstants_other hc, constantsOf_other hc, add_sub_assoc]
      exact .cons ht ih

variable [ExactScalar]

theorem sumsTo_constantTerm (es : List (Expr ℚ)) :
    SumsTo ρ (constantTerm es) (constantsOf es).sum := by
  unfold constantTerm
  simp only [scalar_sum_eq, ExactScalar.eq_eq, ExactScalar.zero_eq, decide_eq_true_eq]
  split_ifs with h
  · rw [h]
    exact .nil
  · exact SumsTo.singleton_iff.mpr (.const ρ _)

theorem sumsTo_dropZeros : ∀ {ts : List (Expr ℚ)} {x : ℚ}, SumsTo ρ ts x →
    SumsTo ρ (ts.filter fun t => !t.isZero) x
  | [], x, h => h
  | t :: ts, x, h => by
    obtain ⟨a, b, ht, hts, rfl⟩ := SumsTo.cons_iff.mp h
    have ih := sumsTo_dropZeros hts
    by_cases hz : t.isZero = true
    · have ha : a = 0 := by rw [← ht.value_eq, isZero_iff.mp hz]; simp
      rw [List.filter_cons_of_neg (by simp [hz]), ha, zero_add]
      exact ih
    · rw [List.filter_cons_of_pos (by simp [hz])]
      exact .cons ht ih

/-! ### Like terms -/

/-- The product that a group of like terms stands for. -/
def LikeTerms.asProduct (g : LikeTerms ℚ) : Expr ℚ := .product (.const g.coefficient :: g.factors)

theorem multipliesTo_splitCoefficient {t : Expr ℚ} {x : ℚ} (h : HasValue ρ t x) :
    MultipliesTo ρ (.const (splitCoefficient t).1 :: (splitCoefficient t).2) x := by
  unfold splitCoefficient
  split
  · exact hasValue_product_iff.mp h
  · have := MultipliesTo.cons (.const ρ 1) (hasValue_product_iff.mp h)
    rwa [one_mul, ← ExactScalar.one_eq] at this
  · have := MultipliesTo.pair (.const ρ 1) h
    rwa [one_mul, ← ExactScalar.one_eq] at this

namespace LikeTerms

theorem sumsTo_add {c : ℚ} {fs : List (Expr ℚ)} {a : ℚ} (h : MultipliesTo ρ (.const c :: fs) a) :
    ∀ {gs : List (LikeTerms ℚ)} {b : ℚ}, SumsTo ρ (gs.map asProduct) b →
      SumsTo ρ ((add c fs gs).map asProduct) (b + a)
  | [], b, hgs => by
    have hb : b = 0 := hgs.sum_eq.symm
    rw [hb, zero_add]
    exact SumsTo.singleton_iff.mpr (hasValue_product_iff.mpr h)
  | g :: gs, b, hgs => by
    obtain ⟨y, z, hg, hrest, rfl⟩ := SumsTo.cons_iff.mp hgs
    unfold add
    split_ifs with heq
    · -- the group has the factors of the new term, so their coefficients add
      have hfs := eq_of_beqList heq
      obtain ⟨c₁, p, hc₁, hp, rfl⟩ := MultipliesTo.cons_iff.mp h
      obtain ⟨c₂, q, hc₂, hq, rfl⟩ := MultipliesTo.cons_iff.mp (hasValue_product_iff.mp hg)
      have hpq : q = p := by rw [← hp.prod_eq, ← hq.prod_eq, hfs]
      have hc₁ : c = c₁ := by simpa using hc₁.value_eq
      have hc₂ : g.coefficient = c₂ := by simpa using hc₂.value_eq
      have hsum : c₂ * q + z + c₁ * p = Scalar.add g.coefficient c * q + z := by
        rw [ExactScalar.add_eq, hc₁, hc₂, hpq]; ring
      rw [hsum]
      exact .cons (hasValue_product_iff.mpr (.cons (.const ρ _) hq)) hrest
    · rw [add_assoc]
      exact .cons hg (sumsTo_add h hrest)

/-- Terms are added to the groups that are there already. -/
theorem sumsTo_foldl_add : ∀ {ts : List (Expr ℚ)} {gs : List (LikeTerms ℚ)} {x b : ℚ},
    SumsTo ρ ts x → SumsTo ρ (gs.map asProduct) b →
    SumsTo ρ ((ts.foldl (fun groups t =>
      add (splitCoefficient t).1 (splitCoefficient t).2 groups) gs).map asProduct) (b + x)
  | [], gs, x, b, hts, hgs => by
    rw [← hts.sum_eq]
    simpa using hgs
  | t :: ts, gs, x, b, hts, hgs => by
    obtain ⟨a, y, ht, hts', rfl⟩ := SumsTo.cons_iff.mp hts
    rw [List.foldl_cons, ← add_assoc]
    exact sumsTo_foldl_add hts' (sumsTo_add (multipliesTo_splitCoefficient ht) hgs)

/-- **Collecting keeps the sum.** -/
theorem sumsTo_collect {ts : List (Expr ℚ)} {x : ℚ} (h : SumsTo ρ ts x) :
    SumsTo ρ ((collect ts).map asProduct) x := by
  have hnone : SumsTo ρ (([] : List (LikeTerms ℚ)).map asProduct) 0 := .nil
  have hall := sumsTo_foldl_add h hnone
  rwa [zero_add] at hall

variable {solve : Solver ℚ} (hs : Exact ρ solve)
include hs

omit [ExactScalar] in
theorem toTerm_hasValue {g : LikeTerms ℚ} {t : Expr ℚ} {x : ℚ} (hg : HasValue ρ g.asProduct x)
    (h : g.toTerm solve = some t) : HasValue ρ t x := by
  unfold toTerm at h
  split_ifs at h with hm
  · obtain ⟨a, b, ha, hb, rfl⟩ := MultipliesTo.cons_iff.mp (hasValue_product_iff.mp hg)
    exact hs.product (.pair ha (hasValue_product_iff.mpr hb)) h
  · rw [← Option.some.inj h]
    exact hg

omit [ExactScalar] in
theorem toTerms_sumsTo : ∀ {gs : List (LikeTerms ℚ)} {ts : List (Expr ℚ)} {x : ℚ},
    SumsTo ρ (gs.map asProduct) x → toTerms solve gs = some ts → SumsTo ρ ts x
  | [], ts, x, hgs, h => by
    rw [toTerms, Option.some.injEq] at h
    rwa [← h]
  | g :: gs, ts, x, hgs, h => by
    simp only [toTerms, Option.bind_eq_bind, Option.bind_eq_some_iff, Option.some.injEq] at h
    obtain ⟨t, ht, ts', hts, rfl⟩ := h
    obtain ⟨a, b, hg, hrest, rfl⟩ := SumsTo.cons_iff.mp hgs
    exact .cons (toTerm_hasValue hs hg ht) (toTerms_sumsTo hrest hts)

end LikeTerms

/-! ### The rule -/

section Rule
variable {solve : Solver ℚ} (hs : Exact ρ solve)
include hs

theorem addNonzero_hasValue {ts : List (Expr ℚ)} {r : Expr ℚ} {x : ℚ} (hts : SumsTo ρ ts x)
    (h : addNonzero solve ts = some r) : HasValue ρ r x := by
  simp only [addNonzero, Option.bind_eq_bind, Option.bind_eq_some_iff, Option.some.injEq] at h
  obtain ⟨others, hothers, stepped, hstepped, rfl⟩ := h
  have hflat := sumsTo_flatten.2 _ _ (hts.perm (ascending_perm ts).symm)
  have hrest := LikeTerms.toTerms_sumsTo hs
    (LikeTerms.sumsTo_collect (sumsTo_nonConstants hflat)) hothers
  have hall := (sumsTo_constantTerm (termsOfList (Expr.ascending ts))).append hrest
  rw [add_sub_cancel] at hall
  exact (hasValue_sumOf (hs.steps_sum hall hstepped)).downgrade

theorem isConst_addNonzero {ts : List (Expr ℚ)} {r : Expr ℚ} (hts : ∀ t ∈ ts, t.isConst = true)
    (h : addNonzero solve ts = some r) : r.isConst = true := by
  simp only [addNonzero, Option.bind_eq_bind, Option.bind_eq_some_iff, Option.some.injEq] at h
  obtain ⟨others, hothers, stepped, hstepped, rfl⟩ := h
  have hflat : ∀ t ∈ Expr.ascending ts, t.isConst = true := fun t ht =>
    hts t ((ascending_perm ts).mem_iff.mp ht)
  rw [termsOfList_consts hflat] at hothers hstepped
  have hnone : nonConstants (Expr.ascending ts) = [] := by
    simpa [nonConstants, List.filter_eq_nil_iff] using hflat
  rw [hnone] at hothers
  obtain rfl : others = [] := (Option.some.inj hothers).symm
  rw [List.append_nil, constantTerm] at hstepped
  split_ifs at hstepped with hzero
  · obtain rfl : stepped = [] := (Option.some.inj hstepped).symm
    rfl
  · simp only [Solver.steps, Option.bind_eq_bind, Option.bind_eq_some_iff,
      Option.some.injEq] at hstepped
    obtain ⟨u, hu, us, rfl, rfl⟩ := hstepped
    rw [hs.step_const hu]
    rfl

theorem isConst_addTerms {ts : List (Expr ℚ)} {r : Expr ℚ} (hts : ∀ t ∈ ts, t.isConst = true)
    (h : addTerms solve ts = some r) : r.isConst = true := by
  have hnonzero : ∀ t ∈ ts.filter fun t => !t.isZero, t.isConst = true := fun t ht =>
    hts t (List.mem_of_mem_filter ht)
  unfold addTerms at h
  split at h
  · next t =>
    rw [← Option.some.inj h]
    exact hts t (List.mem_singleton_self t)
  · split at h
    · rw [← Option.some.inj h]
      rfl
    · next t hone =>
      rw [← Option.some.inj h]
      exact hnonzero t (by rw [hone]; exact List.mem_singleton_self t)
    · rw [← Option.some.inj h]
      rfl
    · exact isConst_addNonzero hs hnonzero h

/-- **The sum of terms has the value that they add up to.** -/
theorem addTerms_hasValue {ts : List (Expr ℚ)} {r : Expr ℚ} {x : ℚ} (hts : SumsTo ρ ts x)
    (h : addTerms solve ts = some r) : HasValue ρ r x := by
  have hnonzero := sumsTo_dropZeros hts
  unfold addTerms at h
  split at h
  · rw [← Option.some.inj h]
    exact SumsTo.singleton_iff.mp hts
  · split at h
    · next hnil =>
      rw [hnil] at hnonzero
      rw [← Option.some.inj h, ← hnonzero.sum_eq, ExactScalar.zero_eq]
      exact .const ρ 0
    · next hone =>
      rw [hone] at hnonzero
      rw [← Option.some.inj h]
      exact SumsTo.singleton_iff.mp hnonzero
    · next a b htwo =>
      rw [htwo] at hnonzero
      have hx : x = a + b := by rw [← hnonzero.sum_eq]; simp
      rw [← Option.some.inj h, hx, ExactScalar.add_eq]
      exact .const ρ _
    · exact addNonzero_hasValue hs hnonzero h

/-- **A sum of constants is a constant.** -/
theorem addTerms_consts {cs : List ℚ} {r : Expr ℚ}
    (h : addTerms solve (cs.map .const) = some r) : r = .const cs.sum := by
  have hconst : ∀ t ∈ cs.map Expr.const, t.isConst = true := by
    simp [Expr.isConst, Expr.constant?]
  have hv : HasValue ρ r cs.sum :=
    addTerms_hasValue hs ⟨by simp [Defined.const], by simp [Function.comp_def]⟩ h
  obtain ⟨c, rfl⟩ := isConst_iff.mp (isConst_addTerms hs hconst h)
  rw [← hv.value_eq]
  simp

end Rule

end SymbolicAlgebra.Simplify
