import SymbolicAlgebra.Proofs.Reading.List
import SymbolicAlgebra.Simplify.Sum

/-! # Sums are read as their terms are

Flattening, adding the constants and collecting like terms keep what a list of terms adds up to, for
every reading and a sound solver of the subtasks, and so does the whole rule (`addTerms_reads`). A
group of like terms is read as the product of its coefficient and its factors. -/

namespace SymbolicAlgebra.Simplify

variable {α K : Type} [Scalar α] [Field K] {V : Expr α → K → Prop} (hV : Reading V)
include hV

/-! ### Flattening and constants -/

theorem flatten_sumReads :
    (∀ (e : Expr α) (x : K), V e x → SumReads V (termsOf e) x) ∧
      ∀ (ts : List (Expr α)) (x : K), SumReads V ts x → SumReads V (termsOfList ts) x := by
  refine termsOf.mutual_induct _ _ ?sum ?other ?nil ?cons
  case sum =>
    intro ts ih x h
    rw [termsOf]
    exact ih x (hV.sum_iff.mp h)
  case other =>
    intro e he x h
    rw [termsOf.eq_2 e he]
    exact SumReads.singleton_iff.mpr h
  case nil =>
    intro x h
    rwa [termsOfList]
  case cons =>
    intro t ts iht ihts x h
    obtain ⟨a, b, ht, hts, rfl⟩ := SumReads.cons_iff.mp h
    rw [termsOfList]
    exact .append (iht a ht) (ihts b hts)

omit hV [Scalar α] in
/-- The constants of a list add up apart from the other terms. -/
theorem constants_sumReads : ∀ {ts : List (Expr α)} {x : K}, SumReads V ts x →
    ∃ c y, SumReads V ((constantsOf ts).map .const) c ∧ SumReads V (nonConstants ts) y ∧ x = c + y
  | [], x, h => ⟨0, 0, .nil, .nil, by rw [SumReads.nil_iff.mp h, add_zero]⟩
  | t :: ts, x, h => by
    obtain ⟨a, b, ht, hts, rfl⟩ := SumReads.cons_iff.mp h
    obtain ⟨c, y, hc, hy, rfl⟩ := constants_sumReads hts
    cases t with
    | const k => exact ⟨a + c, y, .cons ht hc, hy, (add_assoc a c y).symm⟩
    | _ => exact ⟨c, a + y, hc, .cons ht hy, add_left_comm a c y⟩

theorem constantTerm_reads {es : List (Expr α)} {x : K}
    (h : SumReads V ((constantsOf es).map .const) x) : SumReads V (constantTerm es) x := by
  have htotal := hV.scalar_sum h
  unfold constantTerm
  simp only
  split_ifs with hzero
  · exact SumReads.nil_iff.mpr (hV.eq htotal hV.zero hzero)
  · exact SumReads.singleton_iff.mpr htotal

theorem dropZeros_reads : ∀ {ts : List (Expr α)} {x : K}, SumReads V ts x →
    SumReads V (ts.filter fun t => !t.isZero) x
  | [], x, h => h
  | t :: ts, x, h => by
    obtain ⟨a, b, ht, hts, rfl⟩ := SumReads.cons_iff.mp h
    have ih := dropZeros_reads hts
    by_cases hz : t.isZero = true
    · rw [List.filter_cons_of_neg (by simp [hz]), hV.eq_zero_of_isZero ht hz, zero_add]
      exact ih
    · rw [List.filter_cons_of_pos (by simp [hz])]
      exact .cons ht ih

/-! ### Like terms -/

theorem splitCoefficient_reads {t : Expr α} {x : K} (h : V t x) :
    ProductReads V (.const (splitCoefficient t).1 :: (splitCoefficient t).2) x := by
  unfold splitCoefficient
  split
  · exact hV.product_iff.mp h
  · have hone := ProductReads.cons hV.one (hV.product_iff.mp h)
    rwa [one_mul] at hone
  · have hone := ProductReads.pair hV.one h
    rwa [one_mul] at hone

namespace LikeTerms

/-- The product that a group of like terms is read as. -/
def term (g : LikeTerms α) : Expr α := .product (.const g.coefficient :: g.factors)

theorem add_reads {c : α} {fs : List (Expr α)} {a : K} (h : ProductReads V (.const c :: fs) a) :
    ∀ {gs : List (LikeTerms α)} {b : K}, SumReads V (gs.map term) b →
      SumReads V ((add c fs gs).map term) (b + a)
  | [], b, hgs => by
    rw [SumReads.nil_iff.mp hgs, zero_add]
    exact SumReads.singleton_iff.mpr (hV.product_iff.mpr h)
  | g :: gs, b, hgs => by
    obtain ⟨y, z, hg, hrest, rfl⟩ := SumReads.cons_iff.mp hgs
    unfold add
    split_ifs with heq
    · -- the group has the factors of the new term, so their coefficients add
      obtain rfl := hV.eq_of_beqList heq
      obtain ⟨c₁, p, hc₁, hp, rfl⟩ := ProductReads.cons_iff.mp h
      obtain ⟨c₂, q, hc₂, hq, rfl⟩ := ProductReads.cons_iff.mp (hV.product_iff.mp hg)
      obtain rfl := hV.product_unique hq hp
      have hsum : c₂ * q + z + c₁ * q = (c₂ + c₁) * q + z := by ring
      rw [hsum]
      exact .cons (hV.product_iff.mpr (.cons (hV.add hc₂ hc₁) hq)) hrest
    · rw [add_assoc]
      exact .cons hg (add_reads h hrest)

/-- Terms are added to the groups that are there already. -/
theorem foldl_add_reads : ∀ {ts : List (Expr α)} {gs : List (LikeTerms α)} {x b : K},
    SumReads V ts x → SumReads V (gs.map term) b →
    SumReads V ((ts.foldl (fun groups t =>
      add (splitCoefficient t).1 (splitCoefficient t).2 groups) gs).map term) (b + x)
  | [], gs, x, b, hts, hgs => by rwa [SumReads.nil_iff.mp hts, add_zero]
  | t :: ts, gs, x, b, hts, hgs => by
    obtain ⟨a, y, ht, hts', rfl⟩ := SumReads.cons_iff.mp hts
    rw [List.foldl_cons, ← add_assoc]
    exact foldl_add_reads hts' (add_reads hV (splitCoefficient_reads hV ht) hgs)

/-- **Collecting keeps the sum.** -/
theorem collect_reads {ts : List (Expr α)} {x : K} (h : SumReads V ts x) :
    SumReads V ((collect ts).map term) x := by
  have hnone : SumReads V (([] : List (LikeTerms α)).map term) 0 := .nil
  have hall := foldl_add_reads hV h hnone
  rwa [zero_add] at hall

variable {solve : Solver α} (hs : Sound V solve)
include hs

theorem toTerm_reads {g : LikeTerms α} {t : Expr α} {x : K} (hg : V g.term x)
    (h : g.toTerm solve = some t) : V t x := by
  unfold toTerm at h
  split_ifs at h with hm
  · obtain ⟨a, b, ha, hb, rfl⟩ := ProductReads.cons_iff.mp (hV.product_iff.mp hg)
    exact hs.product (.pair ha (hV.product_iff.mpr hb)) h
  · rw [← Option.some.inj h]
    exact hg

theorem toTerms_reads : ∀ {gs : List (LikeTerms α)} {ts : List (Expr α)} {x : K},
    SumReads V (gs.map term) x → toTerms solve gs = some ts → SumReads V ts x
  | [], ts, x, hgs, h => by
    rw [toTerms, Option.some.injEq] at h
    rwa [← h]
  | g :: gs, ts, x, hgs, h => by
    simp only [toTerms, Option.bind_eq_bind, Option.bind_eq_some_iff, Option.some.injEq] at h
    obtain ⟨t, ht, ts', hts, rfl⟩ := h
    obtain ⟨a, b, hg, hrest, rfl⟩ := SumReads.cons_iff.mp hgs
    exact .cons (toTerm_reads hV hs hg ht) (toTerms_reads hrest hts)

end LikeTerms

/-! ### The rule -/

section Rule
variable {solve : Solver α} (hs : Sound V solve)
include hs

theorem addNonzero_reads {ts : List (Expr α)} {r : Expr α} {x : K} (hts : SumReads V ts x)
    (h : addNonzero solve ts = some r) : V r x := by
  simp only [addNonzero, Option.bind_eq_bind, Option.bind_eq_some_iff, Option.some.injEq] at h
  obtain ⟨others, hothers, stepped, hstepped, rfl⟩ := h
  have hsorted : SumReads V (Expr.ascending ts) x := hts.perm (StableSort.sort_perm _ ts)
  have hflat := (flatten_sumReads hV).2 _ _ hsorted
  obtain ⟨c, y, hc, hy, rfl⟩ := constants_sumReads hflat
  have hrest := LikeTerms.toTerms_reads hV hs (LikeTerms.collect_reads hV hy) hothers
  have hall := (constantTerm_reads hV hc).append hrest
  exact hV.downgrade (hV.sumOf (hs.steps_sum hall hstepped))

/-- **The sum of terms is read as what they add up to.** -/
theorem addTerms_reads {ts : List (Expr α)} {r : Expr α} {x : K} (hts : SumReads V ts x)
    (h : addTerms solve ts = some r) : V r x := by
  have hnonzero := dropZeros_reads hV hts
  unfold addTerms at h
  split at h
  · rw [← Option.some.inj h]
    exact SumReads.singleton_iff.mp hts
  · split at h
    · next hnil =>
      rw [hnil] at hnonzero
      rw [← Option.some.inj h, SumReads.nil_iff.mp hnonzero]
      exact hV.zero
    · next hone =>
      rw [hone] at hnonzero
      rw [← Option.some.inj h]
      exact SumReads.singleton_iff.mp hnonzero
    · next a b htwo =>
      rw [htwo] at hnonzero
      obtain ⟨y, z, ha, hb, rfl⟩ := SumReads.cons_iff.mp hnonzero
      rw [← Option.some.inj h]
      exact hV.add ha (SumReads.singleton_iff.mp hb)
    · exact addNonzero_reads hV hs hnonzero h

end Rule

end SymbolicAlgebra.Simplify
