import SymbolicAlgebra.Proofs.Congruence.Permuted
import SymbolicAlgebra.Proofs.Doubled.Term

/-! # Sums of two terms

A sum of two terms that is added to itself has two groups of like terms, and two is distributed over
it when it is multiplied. So both ways come to the sum of what the two terms come to, and from the
second step on to the same, if twice each of the terms has come to rest by then
(`pair_doubled`). -/

namespace SymbolicAlgebra

open SymbolicAlgebra.Expr (Same Fixed)

variable {α : Type} [Scalar α]

/-- The job of a term that is not like any other: a step at its coefficient times its factors. -/
def Task.single (t : Expr α) : Task α :=
  .step (.product (.const (Simplify.splitCoefficient t).1 :: (Simplify.splitCoefficient t).2))

section Perm

variable [CongruentScalar α] [CommutativeScalar α] {as bs : List (Expr α)} {r : Expr α}

theorem Task.ComesTo.sum_of_perm (h : (Task.sum as).ComesTo r) (hperm : as.Perm bs) :
    ∃ r', (Task.sum bs).ComesTo r' ∧ Expr.Same r r' := by
  obtain ⟨depth, h⟩ := h
  exact comesTo_of_rel h (Simplify.solve_perm hperm depth).1

theorem Task.ComesTo.product_of_perm (h : (Task.product as).ComesTo r) (hperm : as.Perm bs) :
    ∃ r', (Task.product bs).ComesTo r' ∧ Expr.Same r r' := by
  obtain ⟨depth, h⟩ := h
  exact comesTo_of_rel h (Simplify.solve_perm hperm depth).2

end Perm

namespace Simplify

/-- What a term added to itself becomes in a sum. -/
inductive Added : Expr α → Expr α → Prop
  | const {c k : α} (h : Scalar.Same k (Scalar.add c c)) : Added (.const c) (.const k)
  | term {t q r : Expr α} (hconst : t.isConst = false) (hq : (Task.like t).ComesTo q)
    (hr : (Task.step q).ComesTo r) : Added t r

/-- What a term becomes when two is distributed over a sum. -/
inductive Twice : Expr α → Expr α → Prop
  | const {c k : α} (h : Scalar.Same k (Scalar.add c c)) : Twice (.const c) (.const k)
  | term {t r : Expr α} (hconst : t.isConst = false)
    (hr : (Task.product [.const Scalar.two, t]).ComesTo r) : Twice t r

/-! ### Adding -/

theorem isConst_first {t u : Expr α} (h : Expr.CollectedTerms [t, u]) : t.isConst = false := by
  refine Bool.eq_false_iff.mpr fun ht => ?_
  rcases hu : u.isConst
  · obtain ⟨x, rfl⟩ := Expr.isConst_iff_exists.mp ht
    have hsorted := List.pairwise_pair.mp h.sorted
    change Expr.mayPrecede .product u (.const x) = true at hsorted
    rw [Expr.not_mayPrecede_const x hu] at hsorted
    cases hsorted
  · have hconstants := h.constants
    simp [ht, hu] at hconstants

theorem downgrade_sumOf_pair (a b : Expr α) : (Expr.sumOf [a, b]).downgrade = .sumOf [a, b] := by
  have hlength : (Expr.descending [a, b]).length = 2 := (Expr.arrange_perm .sum [a, b]).length_eq
  obtain ⟨x, y, hpair⟩ := List.length_eq_two.mp hlength
  rw [Expr.sumOf, hpair]
  rfl

variable [DoublingScalar α] {t u r : Expr α}

theorem sumOf_same_of_perm {as bs : List (Expr α)} (h : as.Perm bs) :
    Same (Expr.sumOf as) (Expr.sumOf bs) :=
  .nary .sum (Expr.arrange_perm_same .sum h)

/-- **A fixed sum of two terms added to itself** is the sum of each term added to itself. -/
theorem added_pair (h : (Expr.sum [t, u]).Fixed)
    (hr : (Task.sum [.sum [t, u], .sum [t, u]]).ComesTo r) :
    ∃ a b, Added t a ∧ Added u b ∧ Same r (.sumOf [a, b]) := by
  obtain ⟨depth | depth, hr⟩ := hr
  · cases hr
  have hcollected := h.collectedTerms
  have hsorted : Expr.ascending [.sum [t, u], .sum [t, u]] = [.sum [t, u], .sum [t, u]] := by
    refine StableSort.sort_eq_self (List.pairwise_pair.mpr ?_)
    rw [Same.iff_compare.mp (.refl (.sum [t, u]))]
    rfl
  have hflat : termsOfList [.sum [t, u], .sum [t, u]] = [t, u, t, u] := by
    simp only [termsOfList, termsOf, List.append_nil]
    have hterms := termsOfList_of_not_isSum hcollected.not_sum
    simp only [termsOfList, List.append_nil] at hterms
    rw [hterms]
    rfl
  change addNonzero (solve depth) [.sum [t, u], .sum [t, u]] = some r at hr
  rw [addNonzero, hsorted, hflat] at hr
  simp only [Option.bind_eq_bind, Option.bind_eq_some_iff, Option.some.injEq] at hr
  obtain ⟨others, hothers, stepped, hstepped, rfl⟩ := hr
  have ht := isConst_first hcollected
  have hself (e : Expr α) : Expr.beqList (splitCoefficient e).2 (splitCoefficient e).2 = true :=
    Expr.beqList_iff.mpr (List.forall₂_same.mpr fun f _ => .refl f)
  rcases hu : u.isConst
  · have hothers' : nonConstants [t, u, t, u] = [t, u, t, u] := by simp [nonConstants, ht, hu]
    have hunlike : Expr.beqList (splitCoefficient t).2 (splitCoefficient u).2 = false := by
      have hpair := hcollected.unlike
      rw [nonConstants, List.filter_cons_of_pos (by simp [ht]),
        List.filter_cons_of_pos (by simp [hu])] at hpair
      exact (List.pairwise_cons.mp hpair).1 u List.mem_cons_self
    have hterm : constantTerm [t, u, t, u] = [] :=
      constantTerm_of_none (List.filter_eq_nil_iff.mpr (by simp [ht, hu]))
    rw [hothers'] at hothers
    rw [hterm, List.nil_append] at hstepped
    have hgroups : LikeTerms.collect [t, u, t, u] =
        [⟨Scalar.add (splitCoefficient t).1 (splitCoefficient t).1, (splitCoefficient t).2, true⟩,
          ⟨Scalar.add (splitCoefficient u).1 (splitCoefficient u).1, (splitCoefficient u).2,
            true⟩] := by
      simp [LikeTerms.collect, LikeTerms.add, hself, hunlike]
    simp only [combineLikeTerms, hgroups, LikeTerms.toTerms, LikeTerms.toTerm, if_true,
      Option.bind_eq_bind, Option.bind_eq_some_iff, Option.some.injEq] at hothers
    obtain ⟨q, hq, _, ⟨q', hq', _, rfl, rfl⟩, rfl⟩ := hothers
    obtain ⟨a, b, rfl, ha, hb⟩ := forall₂_pair (Solver.steps_forall₂ hstepped)
    refine ⟨a, b, .term ht ⟨depth, hq⟩ ⟨depth, ha⟩, .term hu ⟨depth, hq'⟩ ⟨depth, hb⟩, ?_⟩
    rw [downgrade_sumOf_pair]
    exact .refl _
  · obtain ⟨c, rfl⟩ := Expr.isConst_iff_exists.mp hu
    have hothers' : nonConstants [t, .const c, t, .const c] = [t, t] := by
      simp [nonConstants, ht, hu]
    have htnone := Expr.constant?_eq_none ht
    have hcsome : (Expr.const c).constant? = some c := rfl
    have htotal : Scalar.Same (Scalar.sum (constantsOf [t, .const c, t, .const c]))
        (Scalar.add c c) := by
      have hconstants : constantsOf [t, .const c, t, .const c] = [c, c] := by
        simp [constantsOf, htnone, hcsome]
      rw [hconstants]
      exact CongruentScalar.add (DoublingScalar.negZero_add c) (.refl c)
    have hnonzero : Scalar.eq (Scalar.add c c) Scalar.zero = false :=
      DoublingScalar.add_self_ne_zero (hcollected.nonzero (.const c) (by simp))
    have hterm : constantTerm [t, .const c, t, .const c] =
        [.const (Scalar.sum (constantsOf [t, .const c, t, .const c]))] :=
      if_neg (by
        rw [Bool.not_eq_true]
        exact (htotal.eq_eq (.refl _)).trans hnonzero)
    have hgroups : LikeTerms.collect [t, t] = [⟨Scalar.add (splitCoefficient t).1
        (splitCoefficient t).1, (splitCoefficient t).2, true⟩] := by
      simp [LikeTerms.collect, LikeTerms.add, hself]
    rw [hothers'] at hothers
    rw [hterm] at hstepped
    simp only [combineLikeTerms, hgroups, LikeTerms.toTerms, LikeTerms.toTerm, if_true,
      Option.bind_eq_bind, Option.bind_eq_some_iff, Option.some.injEq] at hothers
    obtain ⟨q, hq, _, rfl, rfl⟩ := hothers
    obtain ⟨k, a, rfl, hk, ha⟩ := forall₂_pair (Solver.steps_forall₂ hstepped)
    obtain rfl := (constants_solve depth).step hk
    refine ⟨a, _, .term ht ⟨depth, hq⟩ ⟨depth, ha⟩, .const htotal, ?_⟩
    rw [downgrade_sumOf_pair]
    exact sumOf_same_of_perm (.swap _ _ _)

/-! ### Multiplying -/

omit [DoublingScalar α] in
/-- Terms that are neither constants nor sums are sorted and collected. -/
theorem addTerms_pair {solve : Solver α} {x y : Expr α} (hx : x.isConst = false)
    (hy : y.isConst = false) : addTerms solve [x, y] = addNonzero solve [x, y] := by
  have hzero {e : Expr α} (he : e.isConst = false) : e.isZero = false := by
    cases e with
    | const _ => cases he
    | _ => rfl
  have hfilter : ([x, y].filter fun t => !t.isZero) = [x, y] := by simp [hzero hx, hzero hy]
  unfold addTerms
  simp only [hfilter]
  cases x with
  | const _ => cases hx
  | _ => cases y <;> rfl

omit [DoublingScalar α] in
/-- Two terms that are not like each other, in the order in which they are sorted. -/
theorem addNonzero_unlike [StandardScalar α] {depth : Nat} {terms : List (Expr α)} {x y : Expr α}
    (hsorted : Expr.ascending terms = [x, y]) (hx : x.isConst = false) (hy : y.isConst = false)
    (hx' : x.isSum = false) (hy' : y.isSum = false)
    (hunlike : Expr.beqList (splitCoefficient x).2 (splitCoefficient y).2 = false)
    (h : addNonzero (solve depth) terms = some r) :
    ∃ a b, (Task.single x).ComesTo a ∧ (Task.single y).ComesTo b ∧ r = .sumOf [a, b] := by
  have hflat : termsOfList [x, y] = [x, y] := termsOfList_of_not_isSum (by simp [hx', hy'])
  have hothers : nonConstants [x, y] = [x, y] := by simp [nonConstants, hx, hy]
  have hterm : constantTerm [x, y] = [] :=
    constantTerm_of_none (List.filter_eq_nil_iff.mpr (by simp [hx, hy]))
  have hgroups : LikeTerms.collect [x, y] =
      [⟨(splitCoefficient x).1, (splitCoefficient x).2, false⟩,
        ⟨(splitCoefficient y).1, (splitCoefficient y).2, false⟩] := by
    simp [LikeTerms.collect, LikeTerms.add, hunlike]
  rw [addNonzero, hsorted, hflat, hothers, hterm] at h
  simp only [combineLikeTerms, hgroups, LikeTerms.toTerms, LikeTerms.toTerm, Bool.false_eq_true,
    if_false, Option.bind_eq_bind, Option.bind_some, List.nil_append, Option.bind_eq_some_iff,
    Option.some.injEq] at h
  obtain ⟨stepped, hstepped, rfl⟩ := h
  obtain ⟨a, b, rfl, ha, hb⟩ := forall₂_pair (Solver.steps_forall₂ hstepped)
  exact ⟨a, b, ⟨depth, ha⟩, ⟨depth, hb⟩, downgrade_sumOf_pair a b⟩

/-- **The sum of two terms that are not like each other** is that of a step at either. -/
theorem sum_unlike {x y : Expr α} (hx : x.isConst = false) (hy : y.isConst = false)
    (hx' : x.isSum = false) (hy' : y.isSum = false)
    (hunlike : Expr.beqList (splitCoefficient x).2 (splitCoefficient y).2 = false)
    (h : (Task.sum [x, y]).ComesTo r) :
    ∃ a b, (Task.single x).ComesTo a ∧ (Task.single y).ComesTo b ∧ Same r (.sumOf [a, b]) := by
  obtain ⟨depth | depth, h⟩ := h
  · cases h
  change addTerms (solve depth) [x, y] = some r at h
  rw [addTerms_pair hx hy] at h
  rcases List.perm_pair.mp (Expr.arrange_perm .product [x, y]) with hsorted | hsorted
  · obtain ⟨a, b, ha, hb, rfl⟩ := addNonzero_unlike hsorted hx hy hx' hy' hunlike h
    exact ⟨a, b, ha, hb, .refl _⟩
  · obtain ⟨b, a, hb, ha, rfl⟩ := addNonzero_unlike hsorted hy hx hy' hx'
      (Expr.beqList_symm hunlike) h
    exact ⟨a, b, ha, hb, sumOf_same_of_perm (.swap _ _ _)⟩

/-- Two times a constant in either order is the constant added to itself. -/
theorem single_const [CommutativeScalar α] {c : α}
    (hzero : Scalar.eq c Scalar.zero = false)
    (h : (Task.single (Expr.productOf [.const Scalar.two, .const c])).ComesTo r) :
    ∃ k, r = .const k ∧ Scalar.Same k (Scalar.add c c) := by
  have hconst {x y : α} (h : (Task.step (.product [.const x, .const y])).ComesTo r) :
      (Task.product [.const x, .const y]).ComesTo r := by
    obtain ⟨_, _, hx, hy, h⟩ := comesTo_product_pair h
    obtain rfl := comesTo_const hx
    obtain rfl := comesTo_const hy
    exact h
  have hperm : (Expr.ascending [Expr.const Scalar.two, .const c]).Perm _ :=
    Expr.arrange_perm .product _
  rw [Expr.productOf] at h
  rcases List.perm_pair.mp hperm with hsorted | hsorted
  · rw [hsorted] at h
    exact product_two_const hzero (hconst h)
  · rw [hsorted] at h
    obtain ⟨r', hr', hsame⟩ := (hconst h).product_of_perm (.swap _ _ _)
    obtain ⟨k, rfl, hk⟩ := product_two_const hzero hr'
    cases hsame.node with
    | const hsame => exact ⟨_, rfl, hsame.trans hk⟩

omit [DoublingScalar α] in
/-- A number is distributed over a sum of two terms. -/
theorem comesTo_distributed {k : α} (hzero : Scalar.eq k Scalar.zero = false)
    (hone : Scalar.eq k Scalar.one = false)
    (h : (Task.product [.const k, .sum [t, u]]).ComesTo r) :
    (Task.sum [Expr.productOf [.const k, t], Expr.productOf [.const k, u]]).ComesTo r := by
  obtain ⟨depth | depth, h⟩ := h
  · cases h
  have hzero' : (Expr.const k).isZero = false := hzero
  have hone' : (Expr.const k).isOne = false := hone
  have hsum : (Expr.sum [t, u]).isZero = false := rfl
  have hsum' : (Expr.sum [t, u]).isOne = false := rfl
  change multiplyFactors (solve depth) [.const k, .sum [t, u]] = some r at h
  unfold multiplyFactors at h
  simp only [List.any_cons, List.any_nil, hzero', hsum, Bool.or_false, Bool.false_eq_true, if_false,
    List.filter_cons, hone', hsum', Bool.not_false, if_true, List.filter_nil,
    Expr.ascending_const k (e := .sum [t, u]) rfl] at h
  exact ⟨depth, h⟩

/-- The products of a number with the terms of a fixed sum are not like each other. -/
theorem distributed_unlike (k : α) (h : Expr.CollectedTerms [t, u]) :
    Expr.beqList (splitCoefficient (Expr.productOf [.const k, t])).2
      (splitCoefficient (Expr.productOf [.const k, u])).2 = false := by
  have ht := isConst_first h
  rcases hu : u.isConst
  · have hunlike : t.beq u = false := by
      refine Bool.eq_false_iff.mpr fun hsame => ?_
      have hpair := h.unlike
      rw [nonConstants, List.filter_cons_of_pos (by simp [ht]),
        List.filter_cons_of_pos (by simp [hu])] at hpair
      have hfalse := (List.pairwise_cons.mp hpair).1 u List.mem_cons_self
      rw [Expr.beqList_iff.mpr (splitCoefficient_same hsame).2] at hfalse
      cases hfalse
    simp [Expr.productOf, Expr.ascending_const _ ht, Expr.ascending_const _ hu, splitCoefficient,
      Expr.beqList, hunlike]
  · obtain ⟨c, rfl⟩ := Expr.isConst_iff_exists.mp hu
    have hunlike (x : α) : t.beq (.const x) = false := by
      cases t with
      | const _ => cases ht
      | _ => rfl
    have hperm : (Expr.ascending [Expr.const k, .const c]).Perm _ := Expr.arrange_perm .product _
    rcases List.perm_pair.mp hperm with hsorted | hsorted <;>
      simp [Expr.productOf, Expr.ascending_const _ ht, hsorted, splitCoefficient, Expr.beqList,
        hunlike]

/-- **A number times a fixed sum of two terms** is the sum of the number times each term. -/
theorem distributed_pair {k : α} (hzero : Scalar.eq k Scalar.zero = false)
    (hone : Scalar.eq k Scalar.one = false) (h : Expr.CollectedTerms [t, u])
    (hr : (Task.product [.const k, .sum [t, u]]).ComesTo r) :
    ∃ a b, (Task.single (Expr.productOf [.const k, t])).ComesTo a ∧
      (Task.single (Expr.productOf [.const k, u])).ComesTo b ∧ Same r (.sumOf [a, b]) :=
  sum_unlike rfl rfl rfl rfl (distributed_unlike k h) (comesTo_distributed hzero hone hr)

/-- A product of two with a fixed term is twice the term. -/
theorem twice_of_single [CommutativeScalar α] (ht : t.Fixed) (hzero : t.isZero = false)
    (h : (Task.single (Expr.productOf [.const Scalar.two, t])).ComesTo r) :
    ∃ r', Twice t r' ∧ Same r r' := by
  rcases hconst : t.isConst
  · rw [Expr.productOf, Expr.ascending_const _ hconst] at h
    obtain ⟨_, g, htwo, ⟨depth, hg⟩, h⟩ := comesTo_product_pair h
    obtain rfl := comesTo_const htwo
    obtain ⟨r', hr', hsame⟩ := h.of_same (.product (.cons (.refl _) (.cons (ht.step hg) .nil)))
    exact ⟨r', .term hconst hr', hsame⟩
  · obtain ⟨c, rfl⟩ := Expr.isConst_iff_exists.mp hconst
    obtain ⟨k, rfl, hk⟩ := single_const hzero h
    exact ⟨_, .const hk, .refl _⟩

/-- **Twice a fixed sum of two terms** is the sum of twice each term. -/
theorem twice_pair [CommutativeScalar α] (h : (Expr.sum [t, u]).Fixed)
    (hr : (Task.product [.const Scalar.two, .sum [t, u]]).ComesTo r) :
    ∃ a b, Twice t a ∧ Twice u b ∧ Same r (.sumOf [a, b]) := by
  have hcollected := h.collectedTerms
  obtain ⟨a, b, ha, hb, hsame⟩ :=
    distributed_pair DoublingScalar.two_ne_zero DoublingScalar.two_ne_one hcollected hr
  obtain ⟨a', ha', hsame'⟩ := twice_of_single (h.child List.mem_cons_self)
    (hcollected.nonzero t List.mem_cons_self) ha
  obtain ⟨b', hb', hsame''⟩ := twice_of_single (h.child (List.mem_cons_of_mem _ List.mem_cons_self))
    (hcollected.nonzero u (List.mem_cons_of_mem _ List.mem_cons_self)) hb
  exact ⟨a', b', ha', hb', hsame.trans (.sumOf (.cons hsame' (.cons hsame'' .nil)))⟩

end Simplify

end SymbolicAlgebra
