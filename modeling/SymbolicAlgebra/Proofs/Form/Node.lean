import SymbolicAlgebra.Proofs.Form.Lasting
import SymbolicAlgebra.Proofs.Form.Numbers

/-! # Single nodes keep what lasts

One step at a node with a lasting property gives an expression with the property, and so does a
step at a product of factors with the property (`stepNode_keeps`). The constants of a minimum or a
maximum are folded into one, so it loses arguments only if it gets a constant for them. -/

namespace SymbolicAlgebra.Simplify

variable {α : Type} [Scalar α] {P : Expr α → Prop} (hP : Lasting P)

/-! ### Folding -/

section Fold
include hP

theorem foldConstants_kept {f : Nary} {build : List (Expr α) → Expr α} {as : List (Expr α)}
    (hbuild : ∀ bs : List (Expr α), (bs.length = as.length ∨ 2 ≤ bs.length) → (∀ b ∈ bs, P b) →
      P (build bs)) (has : ∀ a ∈ as, P a) : P (foldConstants f build as) := by
  have hparts (q : Expr α → Bool) : ∀ a ∈ as.filter q, P a := fun a ha =>
    has a (List.mem_of_mem_filter ha)
  have hlength : as.length =
      (as.filter fun e => !e.isConst).length + (as.filter Expr.isConst).length := by
    rw [Nat.add_comm]
    exact List.length_eq_length_filter_add Expr.isConst
  obtain ⟨hnone, hfold⟩ | ⟨-, ⟨-, hfold⟩ | ⟨⟨a, ha, hother⟩, hfold⟩ | ⟨-, hfold⟩⟩ :=
    foldConstants_cases f build as
  · have hnil : as.filter Expr.isConst = [] := by simpa [List.filter_eq_nil_iff] using hnone
    rw [hfold]
    refine hbuild _ (.inl ?_) (hparts _)
    rw [hlength, hnil, List.length_nil, Nat.add_zero]
  · exact hfold ▸ hP.const _
  · have hpos : 0 < (as.filter fun a => !a.isConst).length :=
      List.length_pos_of_mem (List.mem_filter.mpr ⟨ha, by rw [hother, Bool.not_false]⟩)
    rw [hfold]
    refine hbuild _ (.inr ?_) (List.forall_mem_append.mpr
      ⟨hparts _, List.forall_mem_singleton.mpr (hP.const _)⟩)
    rw [List.length_append, List.length_singleton]
    omega
  · rw [hfold]
    refine hbuild _ (.inl ?_) (List.forall_mem_append.mpr ⟨hparts _, hparts _⟩)
    rw [List.length_append, ← hlength]

theorem constantPower?_kept {b r : Expr α} {x : α} (hb : P b)
    (h : constantPower? b x = some r) : P r := by
  unfold constantPower? at h
  split at h
  · rw [← Option.some.inj h]
    exact hP.const _
  · split_ifs at h
    · rw [← Option.some.inj h]
      exact hP.const _
    · rw [← Option.some.inj h]
      exact hb

end Fold

variable {solve : Solver α} (hs : Keeps P solve)
include hP hs

/-! ### Functions of one and two arguments -/

theorem multiplyReciprocal_kept {a b r : Expr α} (ha : P a) (hb : P b)
    (h : multiplyReciprocal solve a b = some r) : P r := by
  simp only [multiplyReciprocal, Option.bind_eq_bind, Option.bind_eq_some_iff] at h
  obtain ⟨inverse, hinverse, h⟩ := h
  exact hs.product_pair ha (hs.step_kept (hP.recip hb) hinverse) h

theorem divide_kept {a b r : Expr α} (ha : P a) (hb : P b) (h : divide solve a b = some r) :
    P r := by
  unfold divide at h
  split at h
  · next n m c d =>
    simp only [Option.bind_eq_bind, Option.bind_eq_some_iff, Option.some.injEq] at h
    obtain ⟨n', hn', d', hd', num, hnum, m', hm', c', hc', den, hden, rfl⟩ := h
    obtain ⟨hn, hm⟩ := hP.fraction_iff.mp ha
    obtain ⟨hc, hd⟩ := hP.fraction_iff.mp hb
    exact hP.fraction_iff.mpr
      ⟨hs.product_pair (hs.step_kept hn hn') (hs.step_kept hd hd') hnum,
        hs.product_pair (hs.step_kept hm hm') (hs.step_kept hc hc') hden⟩
  · simp only [Option.bind_eq_bind, Option.bind_eq_some_iff, Option.some.injEq] at h
    obtain ⟨n', hn', m', hm', den, hden, rfl⟩ := h
    obtain ⟨hn, hm⟩ := hP.fraction_iff.mp ha
    exact hP.fraction_iff.mpr
      ⟨hs.step_kept hn hn', hs.product_pair (hs.step_kept hm hm') hb hden⟩
  · simp only [Option.bind_eq_bind, Option.bind_eq_some_iff, Option.some.injEq] at h
    obtain ⟨d', hd', num, hnum, c', hc', rfl⟩ := h
    obtain ⟨hc, hd⟩ := hP.fraction_iff.mp hb
    exact hP.fraction_iff.mpr
      ⟨hs.product_pair ha (hs.step_kept hd hd') hnum, hs.step_kept hc hc'⟩
  · split_ifs at h
    · rw [← Option.some.inj h]
      exact hP.const _
    · exact multiplyReciprocal_kept hP hs ha hb h
  · exact multiplyReciprocal_kept hP hs ha hb h

theorem stepFraction_kept {a b r : Expr α} (h : P (.fraction a b))
    (hr : stepFraction solve a b = some r) : P r := by
  obtain ⟨ha, hb⟩ := hP.fraction_iff.mp h
  simp only [stepFraction, Option.bind_eq_bind, Option.bind_eq_some_iff] at hr
  obtain ⟨a', ha', b', hb', hr⟩ := hr
  exact divide_kept hP hs (hs.step_kept ha ha') (hs.step_kept hb hb') hr

theorem stepParts_kept {f : Binary} {a b r : Expr α} (h : P (.binary f a b))
    (hr : stepParts solve f a b = some r) : P r := by
  simp only [stepParts, Option.bind_eq_bind, Option.bind_eq_some_iff, Option.some.injEq] at hr
  obtain ⟨a', ha', b', hb', rfl⟩ := hr
  by_cases hf : f = .mod
  · subst hf
    exact hP.mod h (fun ha => hs.step_kept ha ha') fun hb => hs.step_kept hb hb'
  · obtain ⟨ha, hb⟩ := (hP.binary_iff hf).mp h
    exact (hP.binary_iff hf).mpr ⟨hs.step_kept ha ha', hs.step_kept hb hb'⟩

theorem stepPower_kept {b e r : Expr α} (h : P (.power b e))
    (hr : stepPower solve b e = some r) : P r := by
  obtain ⟨hb, he⟩ := hP.power_iff.mp h
  unfold stepPower at hr
  split at hr
  · rw [← Option.some.inj hr]
    obtain ⟨hnum, hden⟩ := hP.fraction_iff.mp hb
    exact hP.fraction_iff.mpr ⟨hP.power_iff.mpr ⟨hnum, he⟩, hP.power_iff.mpr ⟨hden, he⟩⟩
  · simp only [Option.bind_eq_bind, Option.bind_eq_some_iff, Option.some.injEq] at hr
    obtain ⟨product, hproduct, rfl⟩ := hr
    obtain ⟨hinner, hinnerExponent⟩ := hP.power_iff.mp hb
    exact hP.power_iff.mpr ⟨hinner, hs.product_pair he hinnerExponent hproduct⟩
  · refine hs.product (List.forall_mem_map.mpr fun f hf => ?_) hr
    exact hP.power_iff.mpr ⟨hP.args hb f hf, he⟩
  · split at hr
    · split_ifs at hr
      · rw [← Option.some.inj hr]
        exact (hP.log_iff.mp he).2
      · exact stepParts_kept hP hs h hr
    · split at hr
      · next hfold =>
        rw [← Option.some.inj hr]
        exact constantPower?_kept hP hb hfold
      · exact stepParts_kept hP hs h hr
    · exact stepParts_kept hP hs h hr

theorem stepLog_kept {b a r : Expr α} (h : P (.log b a)) (hr : stepLog solve b a = some r) :
    P r := by
  obtain ⟨-, ha⟩ := hP.log_iff.mp h
  unfold stepLog at hr
  split_ifs at hr
  · rw [← Option.some.inj hr]
    exact hP.const _
  · split at hr
    · split_ifs at hr
      · rw [← Option.some.inj hr]
        exact (hP.power_iff.mp ha).2
      · exact stepParts_kept hP hs h hr
    · split_ifs at hr
      · rw [← Option.some.inj hr]
        exact hP.const _
      · exact stepParts_kept hP hs h hr

theorem stepMod_kept {a b r : Expr α} (h : P (.mod a b)) (hr : stepMod solve a b = some r) :
    P r := by
  unfold stepMod at hr
  split at hr
  · unfold finite? at hr
    split at hr
    · next hfold =>
      split_ifs at hfold
      rw [← Option.some.inj hr, ← Option.some.inj hfold]
      exact hP.const _
    · exact stepParts_kept hP hs h hr
  · exact stepParts_kept hP hs h hr

theorem stepArg_kept {f : Unary} {a r : Expr α} (h : P (.unary f a))
    (hr : stepArg solve f a = some r) : P r := by
  simp only [stepArg, Option.bind_eq_bind, Option.bind_eq_some_iff, Option.some.injEq] at hr
  obtain ⟨a', ha', rfl⟩ := hr
  exact hP.unary h fun ha => hs.step_kept ha ha'

theorem stepFinite_kept {f : Unary} {a r : Expr α} (h : P (.unary f a))
    (hr : stepFinite solve f a = some r) : P r := by
  unfold stepFinite at hr
  split at hr
  · next hfold =>
    obtain ⟨x, -, hx⟩ := Option.bind_eq_some_iff.mp hfold
    unfold finite? at hx
    split_ifs at hx
    rw [← Option.some.inj hr, ← Option.some.inj hx]
    exact hP.const _
  · exact stepArg_kept hP hs h hr

theorem stepTrig_kept {kind : Trig} {a r : Expr α} (h : P (.trig kind a))
    (hr : stepTrig solve kind a = some r) : P r := by
  unfold stepTrig at hr
  split at hr
  · next hfold =>
    obtain ⟨x, -, hx⟩ := Option.bind_eq_some_iff.mp hfold
    simp only at hx
    split_ifs at hx
    rw [← Option.some.inj hr, ← Option.some.inj hx]
    exact hP.const _
  · split at hr
    · split_ifs at hr
      · exact hs.step_kept (hP.trig_iff.mp (hP.trig_iff.mp h)) hr
      · exact stepArg_kept hP hs h hr
    · exact stepArg_kept hP hs h hr

/-! ### Any node -/

theorem stepMin_kept {as : List (Expr α)} {r : Expr α} (h : P (.min as))
    (hr : stepMin solve as = some r) : P r := by
  simp only [stepMin, Option.bind_eq_bind, Option.bind_eq_some_iff, Option.some.injEq] at hr
  obtain ⟨bs, hbs, rfl⟩ := hr
  obtain ⟨hlength, hbs⟩ := hs.steps (Factored.of_all (hP.args h)) hbs
  exact foldConstants_kept hP (fun cs hcs => hP.rearranged h (hlength ▸ hcs)) hbs

theorem stepMax_kept {as : List (Expr α)} {r : Expr α} (h : P (.max as))
    (hr : stepMax solve as = some r) : P r := by
  simp only [stepMax, Option.bind_eq_bind, Option.bind_eq_some_iff, Option.some.injEq] at hr
  obtain ⟨bs, hbs, rfl⟩ := hr
  obtain ⟨hlength, hbs⟩ := hs.steps (Factored.of_all (hP.args h)) hbs
  exact foldConstants_kept hP (fun cs hcs => hP.rearranged h (hlength ▸ hcs)) hbs

/-- **One step brings about a lasting property** of a factored expression. -/
theorem stepNode_keeps {e r : Expr α} (he : Factored P e) (h : stepNode solve e = some r) :
    P r := by
  unfold stepNode at h
  split at h
  · rw [← Option.some.inj h]
    exact hP.const _
  · rw [← Option.some.inj h]
    exact he.of_not_product (by simp)
  · simp only [Option.bind_eq_bind, Option.bind_eq_some_iff] at h
    obtain ⟨ts, hts, h⟩ := h
    have hargs := hP.args (he.of_not_product (by simp))
    exact hs.sum (hs.steps (Factored.of_all hargs) hts).2 h
  · simp only [Option.bind_eq_bind, Option.bind_eq_some_iff] at h
    obtain ⟨fs, hfs, h⟩ := h
    exact hs.product (hs.steps (Factored.of_all (he.factors hP)) hfs).2 h
  · exact stepMin_kept hP hs (he.of_not_product (by simp)) h
  · exact stepMax_kept hP hs (he.of_not_product (by simp)) h
  · exact stepFraction_kept hP hs (he.of_not_product (by simp)) h
  · exact stepPower_kept hP hs (he.of_not_product (by simp)) h
  · exact stepLog_kept hP hs (he.of_not_product (by simp)) h
  · exact stepMod_kept hP hs (he.of_not_product (by simp)) h
  · exact stepFinite_kept hP hs (he.of_not_product (by simp)) h
  · exact stepTrig_kept hP hs (he.of_not_product (by simp)) h
  · exact stepFinite_kept hP hs (he.of_not_product (by simp)) h

end SymbolicAlgebra.Simplify
