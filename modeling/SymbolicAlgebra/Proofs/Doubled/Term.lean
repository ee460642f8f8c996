import SymbolicAlgebra.Proofs.Doubled.Fixed

/-! # A term added to itself

The sum of two equal terms is a product taken one step further (`addTerms_self`), and so it comes to
what twice the term comes to, either at once or one step later. That holds for terms that are
*doublable*, whatever steps may do to them, and for all fixed terms
(`sum_same_of_fixed`). -/

namespace SymbolicAlgebra

open SymbolicAlgebra.Expr (Same)

variable {α : Type} [Scalar α]

/-- The job of a term added to itself: the sum of two coefficients times the other factors. -/
def Task.like (t : Expr α) : Task α :=
  .product [.const (Scalar.add (Simplify.splitCoefficient t).1 (Simplify.splitCoefficient t).1),
    .product (Simplify.splitCoefficient t).2]

theorem Task.ComesTo.same [CongruentScalar α] {t u : Task α} {r r' : Expr α} (h : t.ComesTo r)
    (h' : u.ComesTo r') (htu : Task.Same t u) : Expr.Same r r' := by
  obtain ⟨depth, h⟩ := h
  obtain ⟨depth', h'⟩ := h'
  have hrel := Simplify.solve_congruent (max depth depth') htu
  rw [Simplify.solve_mono (le_max_left depth depth') h,
    Simplify.solve_mono (le_max_right depth depth') h'] at hrel
  cases hrel with
  | some hsame => exact hsame

/-- A job that is solved like another comes to the like of what that one comes to. -/
theorem Task.comesTo_of_rel {t u : Task α} {depth : Nat} {r : Expr α}
    (h : Simplify.solve depth t = some r)
    (hrel : Option.Rel Expr.Same (Simplify.solve depth t) (Simplify.solve depth u)) :
    ∃ r', u.ComesTo r' ∧ Expr.Same r r' := by
  rw [h] at hrel
  generalize hresult : Simplify.solve depth u = x at hrel
  cases hrel with
  | some hsame => exact ⟨_, ⟨depth, hresult⟩, hsame⟩

theorem Task.ComesTo.of_same [CongruentScalar α] {t u : Task α} {r : Expr α} (h : t.ComesTo r)
    (htu : Task.Same t u) : ∃ r', u.ComesTo r' ∧ Expr.Same r r' := by
  obtain ⟨depth, h⟩ := h
  exact comesTo_of_rel h (Simplify.solve_congruent depth htu)

namespace Simplify

/-! ### Sums of equal terms -/

section Sum

variable [DoublingScalar α] {solve : Solver α} {e : Expr α}

/-- **The sum of two equal terms** is a product, taken one step further. -/
theorem addTerms_self (hconst : e.isConst = false) (hsum : e.isSum = false) :
    addTerms solve [e, e] =
      (solve (Task.like e)).bind fun r => solve (.step r) := by
  have hzero : e.isZero = false := by
    cases e with
    | const _ => cases hconst
    | _ => rfl
  have hfilter : ([e, e].filter fun t => !t.isZero) = [e, e] := by simp [hzero]
  have hsorted : Expr.ascending [e, e] = [e, e] := by
    refine StableSort.sort_eq_self (List.pairwise_pair.mpr ?_)
    rw [Same.iff_compare.mp (.refl e)]
    rfl
  have hflat : termsOfList [e, e] = [e, e] := termsOfList_of_not_isSum (by simp [hsum])
  have hothers : nonConstants [e, e] = [e, e] := by simp [nonConstants, hconst]
  have hterm : constantTerm [e, e] = [] := by
    have hconstants : constantsOf [e, e] = [] := by
      have hnone : e.constant? = none := by
        cases e with
        | const _ => cases hconst
        | _ => rfl
      simp [constantsOf, hnone]
    simp only [constantTerm, hconstants]
    exact if_pos StandardScalar.negZero_eq_zero
  have hgroups : LikeTerms.collect [e, e] =
      [⟨Scalar.add (splitCoefficient e).1 (splitCoefficient e).1, (splitCoefficient e).2, true⟩] := by
    have hself : Expr.beqList (splitCoefficient e).2 (splitCoefficient e).2 = true :=
      Expr.beqList_iff.mpr (List.forall₂_same.mpr fun f _ => .refl f)
    simp [LikeTerms.collect, LikeTerms.add, hself]
  have hnonzero : addTerms solve [e, e] = addNonzero solve [e, e] := by
    unfold addTerms
    simp only [hfilter]
    cases e with
    | const _ => cases hconst
    | _ => rfl
  simp only [hnonzero, addNonzero, hsorted, hflat, hothers, hterm, combineLikeTerms, hgroups,
    LikeTerms.toTerms, LikeTerms.toTerm, List.nil_append, Option.bind_eq_bind, if_true, Task.like]
  rcases solve (.product _) with _ | r
  · rfl
  · simp only [Option.bind_some, Solver.steps, Option.bind_eq_bind]
    rcases solve (.step r) with _ | r'
    · rfl
    · rfl

end Sum

/-! ### One step -/

section Step

variable {e e' r : Expr α}

/-- A step at a sum takes a step at every term first. -/
theorem comesTo_sum_of_step {ts : List (Expr α)} (h : (Task.step (.sum ts)).ComesTo r) :
    ∃ us, List.Forall₂ (fun t u => (Task.step t).ComesTo u) ts us ∧ (Task.sum us).ComesTo r := by
  obtain ⟨depth | depth, h⟩ := h
  · cases h
  · simp only [solve, perform, stepNode, Option.bind_eq_bind, Option.bind_eq_some_iff] at h
    obtain ⟨us, hus, h⟩ := h
    exact ⟨us, (Solver.steps_forall₂ hus).imp fun _ _ h => ⟨depth, h⟩, depth, h⟩

/-- The partners of two are two. -/
theorem forall₂_pair {β γ : Type} {R : β → γ → Prop} {x y : β} {zs : List γ}
    (h : List.Forall₂ R [x, y] zs) : ∃ a b, zs = [a, b] ∧ R x a ∧ R y b := by
  obtain ⟨a, _, ha, hrest, rfl⟩ := List.forall₂_cons_left_iff.mp h
  obtain ⟨b, _, hb, hnil, rfl⟩ := List.forall₂_cons_left_iff.mp hrest
  cases hnil
  exact ⟨a, b, rfl, ha, hb⟩

/-- A step at a product takes a step at every factor first. -/
theorem comesTo_product_of_step {fs : List (Expr α)} (h : (Task.step (.product fs)).ComesTo r) :
    ∃ gs, List.Forall₂ (fun f g => (Task.step f).ComesTo g) fs gs ∧
      (Task.product gs).ComesTo r := by
  obtain ⟨depth | depth, h⟩ := h
  · cases h
  · simp only [solve, perform, stepNode, Option.bind_eq_bind, Option.bind_eq_some_iff] at h
    obtain ⟨gs, hgs, h⟩ := h
    exact ⟨gs, (Solver.steps_forall₂ hgs).imp fun _ _ h => ⟨depth, h⟩, depth, h⟩

/-- A step at a product of two takes a step at either factor first. -/
theorem comesTo_product_pair {f g : Expr α} (h : (Task.step (.product [f, g])).ComesTo r) :
    ∃ f' g', (Task.step f).ComesTo f' ∧ (Task.step g).ComesTo g' ∧
      (Task.product [f', g']).ComesTo r := by
  obtain ⟨gs, hgs, h⟩ := comesTo_product_of_step h
  obtain ⟨f', g', rfl, hf, hg⟩ := forall₂_pair hgs
  exact ⟨f', g', hf, hg, h⟩

theorem comesTo_const {c : α} (h : (Task.step (.const c)).ComesTo r) : r = .const c := by
  obtain ⟨depth, h⟩ := h
  exact (constants_solve depth).step h

/-- A step at the sum of an expression with itself takes a step at the expression first. -/
theorem comesTo_sum_self (he : (Task.step e).ComesTo e')
    (h : (Task.step (.sum [e, e])).ComesTo r) : (Task.sum [e', e']).ComesTo r := by
  obtain ⟨us, hus, h⟩ := comesTo_sum_of_step h
  obtain ⟨_, _, rfl, ha, hb⟩ := forall₂_pair hus
  obtain rfl := he.unique ha
  obtain rfl := he.unique hb
  exact h

/-- A step at twice an expression takes a step at the expression first. -/
theorem comesTo_product_two (he : (Task.step e).ComesTo e')
    (h : (Task.step (.product [.const Scalar.two, e])).ComesTo r) :
    (Task.product [.const Scalar.two, e']).ComesTo r := by
  obtain ⟨_, _, htwo, hb, h⟩ := comesTo_product_pair h
  obtain rfl := comesTo_const htwo
  obtain rfl := he.unique hb
  exact h

variable [DoublingScalar α] {p p' : Expr α}

/-- Twice a number other than zero is the number added to itself. -/
theorem product_two_const {c : α} (hzero : Scalar.eq c Scalar.zero = false)
    (hp : (Task.product [.const Scalar.two, .const c]).ComesTo p) :
    ∃ k, p = .const k ∧ Scalar.Same k (Scalar.add c c) := by
  obtain ⟨depth | depth, hp⟩ := hp
  · cases hp
  change multiplyFactors (solve depth) [.const Scalar.two, .const c] = some p at hp
  have hzero' : (Expr.const c).isZero = false := hzero
  have htwo : (Expr.const (Scalar.two : α)).isZero = false := DoublingScalar.two_ne_zero
  have htwo' : (Expr.const (Scalar.two : α)).isOne = false := DoublingScalar.two_ne_one
  unfold multiplyFactors at hp
  rcases hone : (Expr.const c).isOne
  · refine ⟨Scalar.mul Scalar.two c, ?_, DoublingScalar.two_mul c⟩
    simpa [hzero', hone, htwo, htwo', eq_comm] using hp
  · have hc : Scalar.Same c Scalar.one := Scalar.same_of_eq hone
    refine ⟨Scalar.two, ?_,
      ((CongruentScalar.add hc hc).trans DoublingScalar.one_add_one).symm⟩
    simpa [hzero', hone, htwo, htwo', eq_comm] using hp

/-- **The sum of a number with itself** is twice the number. -/
theorem sum_same_of_const {c : α} (h : (Task.sum [.const c, .const c]).ComesTo r)
    (hp : (Task.product [.const Scalar.two, .const c]).ComesTo p) : Same r p := by
  obtain ⟨depth | depth, h⟩ := h
  · cases h
  change addTerms (solve depth) [.const c, .const c] = some r at h
  unfold addTerms at h
  rcases hzero : (Expr.const c).isZero
  · have hsum : r = .const (Scalar.add c c) := by
      simpa [hzero, eq_comm] using h
    obtain ⟨k, rfl, hk⟩ := product_two_const hzero hp
    rw [hsum]
    exact .of_numbers hk.symm
  · have hsum : r = .const Scalar.zero := by simpa [hzero, eq_comm] using h
    obtain ⟨depth' | depth', hp⟩ := hp
    · cases hp
    change multiplyFactors (solve depth') [.const Scalar.two, .const c] = some p at hp
    unfold multiplyFactors at hp
    have hproduct : p = .const Scalar.zero := by simpa [hzero, eq_comm] using hp
    rw [hsum, hproduct]
    exact .refl _

/-- The product of two like terms is twice the term, if the term is doublable. -/
theorem like_same_of_doublable (he : e.Doublable)
    (h : (Task.like e).ComesTo r)
    (hp : (Task.product [.const Scalar.two, e]).ComesTo p) : Same r p := by
  obtain ⟨depth | depth, h⟩ := h
  · cases h
  obtain ⟨depth' | depth', hp⟩ := hp
  · cases hp
  have hr := solve_mono (Nat.succ_le_succ (le_max_left depth depth')) h
  have hp := solve_mono (Nat.succ_le_succ (le_max_right depth depth')) hp
  have hrel : Option.Rel Same
      (solve (max depth depth' + 1) (Task.like e))
      (solve (max depth depth' + 1) (.product [.const Scalar.two, e])) :=
    multiplyFactors_doubled (solve_congruent (max depth depth')) he
  rw [hr, hp] at hrel
  cases hrel with
  | some hsame => exact hsame

/-- **The sum of an expression with itself** is the product of two like terms, taken one step
further. -/
theorem comesTo_like (hconst : e.isConst = false) (hsum : e.isSum = false)
    (h : (Task.sum [e, e]).ComesTo r) :
    ∃ q, (Task.like e).ComesTo q ∧ (Task.step q).ComesTo r := by
  obtain ⟨depth | depth, h⟩ := h
  · cases h
  · change addTerms (solve depth) [e, e] = some r at h
    rw [addTerms_self hconst hsum, Option.bind_eq_some_iff] at h
    obtain ⟨q, hq, hr⟩ := h
    exact ⟨q, ⟨depth, hq⟩, depth, hr⟩

end Step

/-! ### Fixed fractions -/

section Fraction

variable [DoublingScalar α]

/-- A step takes a fixed fraction of first powers back to the fraction. -/
theorem step_first_fraction {a d r : Expr α} (h : (Expr.fraction a d).Fixed)
    (ha : a.isFraction = false) (hd : d.isFraction = false)
    (hr : (Task.step (.fraction (.power a (.const Scalar.one))
      (.power d (.const Scalar.one)))).ComesTo r) : Same r (.fraction a d) := by
  obtain ⟨depth | depth, hr⟩ := hr
  · cases hr
  obtain ⟨depth', r', hr', hsame⟩ := h.solved
  change stepFraction (solve depth) _ _ = some r at hr
  change stepFraction (solve depth') a d = some r' at hr'
  simp only [stepFraction, Option.bind_eq_bind, Option.bind_eq_some_iff] at hr hr'
  obtain ⟨a₁, ha₁, d₁, hd₁, hr⟩ := hr
  obtain ⟨a₂, ha₂, d₂, hd₂, hr'⟩ := hr'
  have hnum : Same a₁ a₂ := (h.num.step_power_one ha ha₁).trans (h.num.step ha₂).symm
  have hden : Same d₁ d₂ := (h.den.step_power_one hd hd₁).trans (h.den.step hd₂).symm
  have hrel := divide_congruent (solve_congruent (max depth depth')) hnum hden
  rw [divide_persists (fun _ _ => solve_mono (le_max_left depth depth')) _ _ r hr,
    divide_persists (fun _ _ => solve_mono (le_max_right depth depth')) _ _ r' hr'] at hrel
  cases hrel with
  | some hrel => exact hrel.trans hsame

/-- A fixed fraction that is added to itself has its parts raised to the first power. -/
theorem like_fraction {k : α} {a d q : Expr α} (hk : Scalar.Same k Scalar.two)
    (h : (Expr.fraction a d).Fixed)
    (hq : (Task.product [.const k, .product [.fraction a d]]).ComesTo q) :
    ∃ a' d', Same a' a ∧ Same d' d ∧ Same q (.product [.const Scalar.two,
      .fraction (.power a' (.const Scalar.one)) (.power d' (.const Scalar.one))]) := by
  obtain ⟨depth | depth, hq⟩ := hq
  · cases hq
  have hzero : Scalar.eq k Scalar.zero = false :=
    (hk.eq_eq (.refl _)).trans DoublingScalar.two_ne_zero
  have hone : Scalar.eq k Scalar.one = false :=
    (hk.eq_eq (.refl _)).trans DoublingScalar.two_ne_one
  change multiplyFactors (solve depth) [.const k, .product [.fraction a d]] = some q at hq
  rw [multiplyFactors_coefficient hzero hone rfl rfl] at hq
  have hexpand : expandFractions (solve depth) [.const k, .product [.fraction a d]] =
      some [.const k, .product [.fraction a d]] := expandFractions_coefficient rfl
  rcases hstep : solve depth (.step (.fraction a d)) with _ | f
  · simp [multiplyPowers, hexpand, factorsOfList, factorsOf, nonConstants, Expr.isConst,
      Expr.constant?, asPowers, hstep] at hq
  have hpieces : asPowers (solve depth) [.fraction a d] =
      some [.power f (.const Scalar.one)] := by
    rw [asPowers.eq_3 _ _ _ (by simp), hstep]
    rfl
  have hsame := h.step hstep
  cases hsame.node with
  | @binary _ a' d' _ _ ha hd =>
    refine ⟨a', d', ha, hd, ?_⟩
    -- a fraction to the first is the fraction of the powers
    have hstays : ∀ s, solve depth (.step (.power (.fraction a' d') (.const Scalar.one))) = some s →
        Expr.Same s (.fraction (.power a' (.const Scalar.one)) (.power d' (.const Scalar.one))) :=
      fun s hs => by
        cases depth with
        | zero => cases hs
        | succ depth => exact Option.some.inj hs ▸ .refl _
    have hproduct := multiplyPowers_distinct hexpand hpieces (List.pairwise_singleton _ _)
      (.cons hstays .nil) (List.forall_mem_singleton.mpr rfl) hq
    have htotal : Scalar.Same (Scalar.mul Scalar.one k) Scalar.two :=
      (DoublingScalar.one_mul k).trans hk
    have hcoefficient : coefficient (factorsOfList [.const k, .product [.fraction a d]]) =
        [.const (Scalar.mul Scalar.one k)] :=
      if_neg (by
        rw [Bool.not_eq_true]
        exact (htotal.eq_eq (.refl _)).trans DoublingScalar.two_ne_one)
    rw [hcoefficient, List.singleton_append, Expr.productOf, Expr.ascending_const _ rfl] at hproduct
    exact hproduct.trans (.nary .product (.cons (.of_numbers htotal) (.cons (.refl _) .nil)))

end Fraction

/-! ### Fixed terms -/

section Term

variable [DoublingScalar α] {e q A B : Expr α}

omit [Scalar α] [DoublingScalar α] in
theorem length_pos_of_two_le {c : Expr α} {gs : List (Expr α)} (h : 2 ≤ (c :: gs).length) :
    (∃ g, gs = [g]) ∨ 2 ≤ gs.length := by
  match gs, h with
  | [g], _ => exact .inl ⟨g, rfl⟩
  | _ :: _ :: _, _ => exact .inr (Nat.le_add_left 2 _)

/-- A fixed expression has no zero as its coefficient. -/
theorem coefficient_ne_zero (he : e.Fixed) :
    Scalar.eq (splitCoefficient e).1 Scalar.zero = false := by
  unfold splitCoefficient
  split
  · exact he.collectedFactors.nonzero _ List.mem_cons_self
  · exact StandardScalar.one_eq_zero
  · exact StandardScalar.one_eq_zero

/-- An expression whose coefficient is one half is a product. -/
theorem eq_product_of_half
    (h : Scalar.eq (Scalar.add (splitCoefficient e).1 (splitCoefficient e).1) Scalar.one = true) :
    ∃ c fs, e = .product (.const c :: fs) ∧ Scalar.eq (Scalar.add c c) Scalar.one = true := by
  have htwo : Scalar.eq (Scalar.add Scalar.one Scalar.one : α) Scalar.one = false :=
    (DoublingScalar.one_add_one.eq_eq (.refl _)).trans DoublingScalar.two_ne_one
  unfold splitCoefficient at h
  split at h
  · next c fs => exact ⟨c, fs, rfl, h⟩
  · rw [htwo] at h
    cases h
  · rw [htwo] at h
    cases h

/-- Two halves of a product are the product of its other factors. -/
theorem like_half {c : α} {gs : List (Expr α)}
    (hhalf : Scalar.eq (Scalar.add c c) Scalar.one = true)
    (hq : (Task.product [.const (Scalar.add c c), .product gs]).ComesTo q) : q = .product gs := by
  obtain ⟨depth | depth, hq⟩ := hq
  · cases hq
  have hsame : Scalar.Same (Scalar.add c c) Scalar.one := Scalar.same_of_eq hhalf
  have hzero : Scalar.eq (Scalar.add c c) Scalar.zero = false :=
    (hsame.eq_eq (.refl _)).trans StandardScalar.one_eq_zero
  have hzero' : (Expr.const (Scalar.add c c)).isZero = false := hzero
  have hone : (Expr.const (Scalar.add c c)).isOne = true := hhalf
  have hproduct : (Expr.product gs).isZero = false := rfl
  have hproduct' : (Expr.product gs).isOne = false := rfl
  change multiplyFactors (solve depth) [.const (Scalar.add c c), .product gs] = some q at hq
  unfold multiplyFactors at hq
  simpa [hzero', hone, hproduct, hproduct', eq_comm] using hq

/-- **The sum of a fixed fraction with itself** is twice the fraction, if its parts are no
fractions. -/
theorem sum_same_of_plain_fraction {a d : Expr α} (he : (Expr.fraction a d).Fixed)
    (ha : a.isFraction = false) (hd : d.isFraction = false)
    (hq : (Task.like (.fraction a d)).ComesTo q) (hA : (Task.step q).ComesTo A)
    (hB : (Task.product [.const Scalar.two, .fraction a d]).ComesTo B) : Same A B := by
  obtain ⟨a', d', ha', hd', hsame⟩ := like_fraction DoublingScalar.one_add_one he hq
  obtain ⟨A', hA', hsame'⟩ := hA.of_same (.step hsame)
  obtain ⟨_, f, htwo, hf, hA'⟩ := comesTo_product_pair hA'
  obtain rfl := comesTo_const htwo
  have hparts : Same (.fraction a d) (.fraction a' d') := .binary .fraction ha'.symm hd'.symm
  have hback := step_first_fraction (he.same hparts) (ha'.isFraction_eq.trans ha)
    (hd'.isFraction_eq.trans hd) hf
  exact hsame'.trans
    (hA'.same hB (.product (.cons (.refl _) (.cons (hback.trans hparts.symm) .nil))))

/-- **The sum of a fixed term with itself** is twice the term, at once or a step later. -/
theorem sum_same_of_fixed (he : e.Fixed) (hconst : e.isConst = false) (hsum : e.isSum = false)
    (hfraction : e.isFraction = false) (hq : (Task.like e).ComesTo q)
    (hA : (Task.step q).ComesTo A) (hB : (Task.product [.const Scalar.two, e]).ComesTo B) :
    Same A B ∨ ∀ B', (Task.step B).ComesTo B' → Same A B' := by
  have hnonzero := DoublingScalar.add_self_ne_zero (coefficient_ne_zero he)
  rcases hone : Scalar.eq (Scalar.add (splitCoefficient e).1 (splitCoefficient e).1) Scalar.one
  · right
    have hsame := like_same_of_doublable ⟨hconst, hsum, hfraction, hnonzero, hone⟩ hq hB
    exact fun B' hB' => hA.same hB' (.step hsame)
  · obtain ⟨c, gs, rfl, hhalf⟩ := eq_product_of_half hone
    obtain rfl := like_half hhalf hq
    obtain ⟨depth | depth, hB⟩ := hB
    · cases hB
    have hsame := he.two_times_half hhalf hB
    rcases length_pos_of_two_le he.two_le_length with ⟨g, rfl⟩ | hlength
    · left
      obtain ⟨gs, hgs, hA⟩ := comesTo_product_of_step hA
      match gs, hgs with
      | [_], .cons hg .nil =>
        obtain ⟨depth, hg⟩ := hg
        obtain ⟨depth' | depth', hA⟩ := hA
        · cases hA
        obtain rfl := Option.some.inj hA
        have hfixed : g.Fixed := he.child (List.mem_cons_of_mem _ List.mem_cons_self)
        exact (hfixed.step hg).trans hsame.symm
    · right
      rw [Expr.downgrade_product_of_length hlength] at hsame
      exact fun B' hB' => hA.same hB' (.step hsame.symm)

end Term

end Simplify

end SymbolicAlgebra
