import SymbolicAlgebra.Proofs.Collected.Tame

/-! # Sums shrink

The sum of tame terms is tame and no bulkier than the sum node (`addTerms_shrinks`). Flattening
drops the sum nodes in between, constants are added into one, and a group of several like terms is
at most twice as bulky as its factors, which is no more than its terms together. -/

namespace SymbolicAlgebra.Simplify

open SymbolicAlgebra.Expr (Same Within bulk)

variable {α : Type} [Scalar α]

/-! ### Lists -/

theorem sum_bulk_perm {es es' : List (Expr α)} (h : es.Perm es') :
    (es.map bulk).sum = (es'.map bulk).sum :=
  (h.map bulk).sum_eq

theorem sum_bulk_filter (p : Expr α → Bool) (es : List (Expr α)) :
    (es.map bulk).sum =
      ((es.filter p).map bulk).sum + ((es.filter fun e => !p e).map bulk).sum := by
  rw [← sum_bulk_perm (List.filter_append_perm p es), List.map_append, List.sum_append]

theorem sum_bulk_same [OrderedScalar α] {es es' : List (Expr α)} (h : List.Forall₂ Same es es') :
    (es.map bulk).sum = (es'.map bulk).sum := by
  rw [← Expr.addBulks_eq, ← Expr.addBulks_eq, Same.addBulks_eq_of_same h]

theorem prod_bulk_same [OrderedScalar α] {es es' : List (Expr α)} (h : List.Forall₂ Same es es') :
    (es.map bulk).prod = (es'.map bulk).prod := by
  rw [← Expr.multiplyBulks_eq, ← Expr.multiplyBulks_eq, Same.multiplyBulks_eq_of_same h]

omit [Scalar α] in
/-- The constants of a list are its numbers. -/
theorem filter_isConst_eq (es : List (Expr α)) :
    es.filter Expr.isConst = (constantsOf es).map .const := by
  induction es with
  | nil => rfl
  | cons e es ih =>
    cases e with
    | const x => exact congrArg (Expr.const x :: ·) ih
    | _ => exact ih

/-! ### Flattening -/

omit [Scalar α] in
theorem termsOf_of_not_isSum {e : Expr α} (h : e.isSum = false) : termsOf e = [e] := by
  unfold termsOf
  split
  · cases h
  · rfl

omit [Scalar α] in
theorem termsOfList_of_not_isSum : ∀ {ts : List (Expr α)}, (∀ t ∈ ts, t.isSum = false) →
    termsOfList ts = ts
  | [], _ => rfl
  | t :: ts, h => by
    obtain ⟨ht, hts⟩ := List.forall_mem_cons.mp h
    rw [termsOfList, termsOf_of_not_isSum ht, termsOfList_of_not_isSum hts, List.singleton_append]

mutual

theorem termsOf_within {n a : Nat} : ∀ {e : Expr α}, Within n a e →
    ∀ t ∈ termsOf e, Within n a t
  | .nary .sum _, h => by
    rw [termsOf]
    exact termsOfList_within (Within.sum_iff.mp h)
  | .nary .product _, h | .nary .min _, h | .nary .max _, h => List.forall_mem_singleton.mpr h
  | .const _, h | .var _, h | .unary _ _, h | .binary _ _ _, h => List.forall_mem_singleton.mpr h

theorem termsOfList_within {n a : Nat} : ∀ {ts : List (Expr α)}, (∀ t ∈ ts, Within n a t) →
    ∀ t ∈ termsOfList ts, Within n a t
  | [], h => h
  | _ :: _, h => by
    obtain ⟨ht, hts⟩ := List.forall_mem_cons.mp h
    rw [termsOfList]
    exact List.forall_mem_append.mpr ⟨termsOf_within ht, termsOfList_within hts⟩

end

mutual

/-- **Flattening drops the bulk of the sum nodes.** -/
theorem sum_bulk_termsOf : ∀ e : Expr α,
    ((termsOf e).map bulk).sum + (if e.isSum then 2 else 0) ≤ e.bulk
  | .nary .sum ts => by
    rw [termsOf, Expr.bulk_sum]
    exact Nat.add_le_add_right (sum_bulk_termsOfList ts) 2
  | .nary .product _ | .nary .min _ | .nary .max _ => Nat.le_refl _
  | .const _ | .var _ | .unary _ _ | .binary _ _ _ => Nat.le_refl _

theorem sum_bulk_termsOfList : ∀ ts : List (Expr α),
    ((termsOfList ts).map bulk).sum ≤ (ts.map bulk).sum
  | [] => Nat.le_refl _
  | t :: ts => by
    have ht := sum_bulk_termsOf t
    have hts := sum_bulk_termsOfList ts
    rw [termsOfList, List.map_append, List.sum_append, List.map_cons, List.sum_cons]
    omega

end

/-- A sum among the terms makes a difference. -/
theorem sum_bulk_termsOfList_lt {ts : List (Expr α)} {t : Expr α} (ht : t ∈ ts)
    (hsum : t.isSum = true) : ((termsOfList ts).map bulk).sum < (ts.map bulk).sum := by
  induction ts with
  | nil => cases ht
  | cons u us ih =>
    have hu := sum_bulk_termsOf u
    have hus := sum_bulk_termsOfList us
    rw [termsOfList, List.map_append, List.sum_append, List.map_cons, List.sum_cons]
    rcases List.mem_cons.mp ht with rfl | ht
    · rw [if_pos hsum] at hu
      omega
    · have := ih ht
      omega

/-! ### Like terms -/

namespace LikeTerms

/-- A bound for what a group of like terms amounts to. -/
def heft (g : LikeTerms α) : Nat :=
  if g.merged then 2 * (g.factors.map bulk).prod
  else (Expr.const g.coefficient).bulk * (g.factors.map bulk).prod

variable {n a : Nat} {solve : Solver α} (hs : Bounded n solve)

include hs in
theorem toTerm_shrinks {g : LikeTerms α} {t : Expr α} (hg : ∀ f ∈ g.factors, Within n a f)
    (h : g.toTerm solve = some t) : Within n a t ∧ t.bulk ≤ g.heft := by
  have hproduct : Within n a (.product g.factors) := Within.product_iff.mpr hg
  unfold toTerm at h
  unfold heft
  split_ifs at h ⊢
  · obtain ⟨ht, hle⟩ := hs.product_pair (.const g.coefficient) hproduct h
    rw [Expr.bulk_product] at hle
    exact ⟨ht, hle.trans (Nat.mul_le_mul_right _ (Expr.bulk_const_le _))⟩
  · obtain rfl := Option.some.inj h
    rw [Expr.bulk_product, List.map_cons, List.prod_cons]
    exact ⟨Within.product_iff.mpr (List.forall_mem_cons.mpr ⟨.const _, hg⟩), Nat.le_refl _⟩

include hs in
theorem toTerms_shrinks : ∀ {gs : List (LikeTerms α)} {ts : List (Expr α)},
    (∀ g ∈ gs, ∀ f ∈ g.factors, Within n a f) → toTerms solve gs = some ts →
      (∀ t ∈ ts, Within n a t) ∧ (ts.map bulk).sum ≤ (gs.map heft).sum ∧ ts.length = gs.length
  | [], ts, _, h => by
    rw [toTerms, Option.some.injEq] at h
    simp [← h]
  | g :: gs, ts, hgs, h => by
    simp only [toTerms, Option.bind_eq_bind, Option.bind_eq_some_iff, Option.some.injEq] at h
    obtain ⟨t, ht, ts', hts, rfl⟩ := h
    obtain ⟨hg, hgs⟩ := List.forall_mem_cons.mp hgs
    obtain ⟨htw, hle⟩ := toTerm_shrinks hs hg ht
    obtain ⟨htsw, hles, hlength⟩ := toTerms_shrinks hgs hts
    refine ⟨List.forall_mem_cons.mpr ⟨htw, htsw⟩, Nat.add_le_add hle hles, ?_⟩
    rw [List.length_cons, List.length_cons, hlength]

theorem add_within {c : α} {fs : List (Expr α)} (hfs : ∀ f ∈ fs, Within n a f) :
    ∀ {gs : List (LikeTerms α)}, (∀ g ∈ gs, ∀ f ∈ g.factors, Within n a f) →
      ∀ g ∈ add c fs gs, ∀ f ∈ g.factors, Within n a f
  | [], _ => List.forall_mem_singleton.mpr hfs
  | g :: gs, hgs => by
    obtain ⟨hg, hrest⟩ := List.forall_mem_cons.mp hgs
    unfold add
    split_ifs
    · exact List.forall_mem_cons.mpr ⟨hg, hrest⟩
    · exact List.forall_mem_cons.mpr ⟨hg, add_within hfs hrest⟩

/-- **A term that joins a group** adds at least what the group gains. -/
theorem heft_add [OrderedScalar α] (c : α) (fs : List (Expr α)) : ∀ gs : List (LikeTerms α),
    ((add c fs gs).map heft).sum ≤
      (gs.map heft).sum + (Expr.const c).bulk * (fs.map bulk).prod
  | [] => by simp [add, heft]
  | g :: gs => by
    unfold add
    split_ifs with hsame
    · have hprod := prod_bulk_same (Expr.beqList_iff.mp hsame)
      have hg : (g.factors.map bulk).prod ≤ g.heft := by
        unfold heft
        split_ifs
        · omega
        · exact Nat.le_mul_of_pos_left _ (Expr.bulk_pos _)
      have hc : (fs.map bulk).prod ≤ (Expr.const c).bulk * (fs.map bulk).prod :=
        Nat.le_mul_of_pos_left _ (Expr.bulk_pos _)
      have hmerged : (LikeTerms.mk (Scalar.add g.coefficient c) g.factors true).heft =
          2 * (g.factors.map bulk).prod := if_pos rfl
      simp only [List.map_cons, List.sum_cons, hmerged]
      omega
    · have ih := heft_add c fs gs
      rw [List.map_cons, List.sum_cons, List.map_cons, List.sum_cons]
      omega

variable [StandardScalar α]

theorem splitCoefficient_bulk (t : Expr α) :
    (Expr.const (splitCoefficient t).1).bulk * ((splitCoefficient t).2.map bulk).prod = t.bulk := by
  have hone : (Expr.const (Scalar.one : α)).bulk = 1 := by
    rw [Expr.bulk, StandardScalar.one_eq_one, if_pos rfl]
  unfold splitCoefficient
  split
  · rw [Expr.bulk_product, List.map_cons, List.prod_cons]
  · rw [Expr.bulk_product, hone, Nat.one_mul]
  · rw [hone, List.map_singleton, List.prod_singleton, Nat.one_mul]

omit [StandardScalar α] in
theorem splitCoefficient_within {t : Expr α} (ht : Within n a t) :
    ∀ f ∈ (splitCoefficient t).2, Within n a f := by
  unfold splitCoefficient
  split
  · exact (List.forall_mem_cons.mp (Within.product_iff.mp ht)).2
  · exact Within.product_iff.mp ht
  · exact List.forall_mem_singleton.mpr ht

/-- **The groups of like terms** are no bulkier than the terms. -/
theorem collect_shrinks {ts : List (Expr α)} (hts : ∀ t ∈ ts, Within n a t) :
    (∀ g ∈ collect ts, ∀ f ∈ g.factors, Within n a f) ∧
      ((collect ts).map heft).sum ≤ (ts.map bulk).sum := by
  have hfold : ∀ (ts : List (Expr α)) (gs : List (LikeTerms α)), (∀ t ∈ ts, Within n a t) →
      (∀ g ∈ gs, ∀ f ∈ g.factors, Within n a f) →
      let groups := ts.foldl (fun groups t =>
        add (splitCoefficient t).1 (splitCoefficient t).2 groups) gs
      (∀ g ∈ groups, ∀ f ∈ g.factors, Within n a f) ∧
        (groups.map heft).sum ≤ (gs.map heft).sum + (ts.map bulk).sum := by
    intro ts
    induction ts with
    | nil => exact fun gs _ hgs => ⟨hgs, Nat.le_refl _⟩
    | cons t ts ih =>
      intro gs hts hgs
      obtain ⟨ht, hts⟩ := List.forall_mem_cons.mp hts
      obtain ⟨hwithin, hle⟩ := ih _ hts (add_within (splitCoefficient_within ht) hgs)
      refine ⟨hwithin, hle.trans ?_⟩
      have hadd := heft_add (splitCoefficient t).1 (splitCoefficient t).2 gs
      rw [splitCoefficient_bulk] at hadd
      rw [List.map_cons, List.sum_cons]
      omega
  obtain ⟨hwithin, hle⟩ := hfold ts [] hts (by simp)
  exact ⟨hwithin, hle.trans (by simp)⟩

end LikeTerms

/-! ### The rule -/

variable [StandardScalar α]

/-- The sum of constants is no bulkier than they are. -/
theorem sum_bulk_constantTerm (es : List (Expr α)) :
    ((constantTerm es).map bulk).sum ≤ ((es.filter Expr.isConst).map bulk).sum := by
  rw [filter_isConst_eq]
  simp only [constantTerm]
  rcases constantsOf es with _ | ⟨c, _ | ⟨d, cs⟩⟩
  · -- no constant
    have hzero : Scalar.eq (Scalar.sum []) (Scalar.zero : α) = true :=
      StandardScalar.negZero_eq_zero
    rw [if_pos hzero]
    exact Nat.le_refl _
  · split_ifs
    · exact Nat.zero_le _
    · rcases hc : Scalar.eq c Scalar.one
      · simpa [Expr.bulk_const_of_ne hc] using Expr.bulk_const_le _
      · have hsame : Scalar.Same (Scalar.sum [c]) c :=
          ((CongruentScalar.add (.refl _) (Scalar.same_of_eq hc)).trans
            StandardScalar.negZero_add_one).trans (Scalar.Same.symm (Scalar.same_of_eq hc))
        simpa using (Same.bulk_eq (Same.of_numbers hsame)).le
  · -- two constants or more: their sum counts for one
    have hc := Expr.bulk_pos (Expr.const c)
    have hd := Expr.bulk_pos (Expr.const d)
    split_ifs
    · exact Nat.zero_le _
    · have htotal := Expr.bulk_const_le (Scalar.sum (c :: d :: cs))
      simp only [List.map_cons, List.map_nil, List.sum_cons, List.sum_nil]
      omega

section Rule

variable {n a : Nat} {solve : Solver α} (hs : Bounded n solve)
include hs

/-- **What the terms of a sum come to**: as many expressions as there are groups of like terms, and
one for the constants. -/
theorem addNonzero_stepped {ts : List (Expr α)} {r : Expr α} (hts : ∀ t ∈ ts, Within n a t)
    (h : addNonzero solve ts = some r) :
    ∃ stepped, r = (Expr.sumOf stepped).downgrade ∧ (∀ s ∈ stepped, Within n a s) ∧
      (stepped.map bulk).sum ≤ ((termsOfList (Expr.ascending ts)).map bulk).sum ∧
      stepped.length = (constantTerm (termsOfList (Expr.ascending ts))).length +
        (LikeTerms.collect (nonConstants (termsOfList (Expr.ascending ts)))).length := by
  simp only [addNonzero, Option.bind_eq_bind, Option.bind_eq_some_iff, Option.some.injEq] at h
  obtain ⟨others, hothers, stepped, hstepped, rfl⟩ := h
  have hflat : ∀ t ∈ termsOfList (Expr.ascending ts), Within n a t :=
    termsOfList_within fun t ht => hts t (StableSort.mem_sort.mp ht)
  generalize termsOfList (Expr.ascending ts) = flat at *
  have hnonConstants : ∀ t ∈ nonConstants flat, Within n a t := fun t ht =>
    hflat t (List.mem_of_mem_filter ht)
  obtain ⟨hfactors, hheft⟩ := LikeTerms.collect_shrinks hnonConstants
  obtain ⟨hwithin, hle, hlength⟩ := LikeTerms.toTerms_shrinks hs hfactors hothers
  have hconstants : ∀ t ∈ constantTerm flat, Within n a t := by
    rcases length_constantTerm_le flat with hnil | ⟨c, hc⟩
    · simp [hnil]
    · simpa [hc] using Within.const c
  have hsteps := hs.steps (List.forall_mem_append.mpr ⟨hconstants, hwithin⟩) hstepped
  refine ⟨stepped, rfl, Shrinks.within hsteps, ?_, ?_⟩
  · have hsum := Shrinks.sum_le hsteps
    rw [List.map_append, List.sum_append] at hsum
    calc (stepped.map bulk).sum
        ≤ ((constantTerm flat).map bulk).sum + (others.map bulk).sum := hsum
      _ ≤ ((flat.filter Expr.isConst).map bulk).sum + ((nonConstants flat).map bulk).sum :=
        Nat.add_le_add (sum_bulk_constantTerm flat) (hle.trans hheft)
      _ = (flat.map bulk).sum := (sum_bulk_filter Expr.isConst flat).symm
  · rw [← hsteps.length_eq, List.length_append, hlength]

omit [StandardScalar α] hs in
theorem downgrade_sumOf_shrinks {ts : List (Expr α)} (hts : ∀ t ∈ ts, Within n a t) :
    Within n a (Expr.sumOf ts).downgrade ∧
      (Expr.sumOf ts).downgrade.bulk ≤ (ts.map bulk).sum + 2 := by
  have hperm := Expr.arrange_perm .sum ts
  have hwithin : ∀ t ∈ Expr.descending ts, Within n a t := fun t ht => hts t (hperm.mem_iff.mp ht)
  have hsum : ((Expr.descending ts).map bulk).sum = (ts.map bulk).sum := sum_bulk_perm hperm
  rw [Expr.sumOf, ← hsum]
  match Expr.descending ts, hwithin with
  | [], _ => exact ⟨.const _, (Expr.bulk_const_le _).trans (Nat.le_add_left _ _)⟩
  | [t], hwithin =>
    refine ⟨hwithin t List.mem_cons_self, ?_⟩
    rw [List.map_singleton, List.sum_singleton]
    exact Nat.le_add_right _ _
  | t :: u :: us, hwithin => exact ⟨Within.sum_iff.mpr hwithin, (Expr.bulk_sum _).le⟩

/-- **The sum of tame terms is tame** and no bulkier than the sum node. -/
theorem addTerms_shrinks {ts : List (Expr α)} {r : Expr α} (hts : ∀ t ∈ ts, Within n a t)
    (h : addTerms solve ts = some r) : Within n a r ∧ r.bulk ≤ (ts.map bulk).sum + 2 := by
  unfold addTerms at h
  split at h
  · next t =>
    rw [← Option.some.inj h, List.map_singleton, List.sum_singleton]
    exact ⟨hts t (List.mem_singleton_self t), Nat.le_add_right _ _⟩
  · have hnonzero : ∀ t ∈ ts.filter fun t => !t.isZero, Within n a t := fun t ht =>
      hts t (List.mem_of_mem_filter ht)
    have hdropped : ((ts.filter fun t => !t.isZero).map bulk).sum ≤ (ts.map bulk).sum := by
      rw [sum_bulk_filter Expr.isZero ts]
      exact Nat.le_add_left _ _
    generalize ts.filter (fun t => !t.isZero) = nonzero at h hnonzero hdropped
    split at h
    · rw [← Option.some.inj h]
      exact ⟨.const _, (Expr.bulk_const_le _).trans (Nat.le_add_left _ _)⟩
    · next t =>
      rw [← Option.some.inj h]
      rw [List.map_singleton, List.sum_singleton] at hdropped
      exact ⟨hnonzero t (List.mem_singleton_self t), by omega⟩
    · rw [← Option.some.inj h]
      exact ⟨.const _, (Expr.bulk_const_le _).trans (Nat.le_add_left _ _)⟩
    · obtain ⟨stepped, rfl, hwithin, hle, -⟩ := addNonzero_stepped hs hnonzero h
      obtain ⟨hr, hbulk⟩ := downgrade_sumOf_shrinks hwithin
      have hsorted : (Expr.ascending nonzero).Perm nonzero := Expr.arrange_perm .product nonzero
      have hflat := sum_bulk_termsOfList (Expr.ascending nonzero)
      rw [sum_bulk_perm hsorted] at hflat
      exact ⟨hr, by omega⟩

end Rule

end SymbolicAlgebra.Simplify
