import SymbolicAlgebra.Proofs.Form.Lasting
import SymbolicAlgebra.Simplify.Product

/-! # Products keep what lasts

The product of factors with a lasting property has it too (`multiplyFactors_keeps`). The factors are
flattened first, so they may be factored only, as a coefficient next to a product is; a product that
is distributed over a sum becomes a sum of two products, and the solver repairs these. -/

namespace SymbolicAlgebra.Simplify

variable {α : Type} [Scalar α] {P : Expr α → Prop}

/-! ### Flattening and constants -/

section Flatten
variable (hP : Lasting P)
include hP

theorem factorsOf_kept :
    (∀ e : Expr α, Factored P e → ∀ f ∈ factorsOf e, P f) ∧
      ∀ es : List (Expr α), (∀ e ∈ es, Factored P e) → ∀ f ∈ factorsOfList es, P f := by
  refine factorsOf.mutual_induct _ _ ?product ?other ?nil ?cons
  case product =>
    intro fs ih h
    rw [factorsOf]
    exact ih (Factored.of_all (h.factors hP))
  case other =>
    intro e he h
    rw [factorsOf.eq_2 e he]
    simpa using h.of_not_product he
  case nil =>
    intro h
    simp [factorsOfList]
  case cons =>
    intro e es ihe ihes h
    obtain ⟨he, hes⟩ := List.forall_mem_cons.mp h
    rw [factorsOfList]
    exact List.forall_mem_append.mpr ⟨ihe he, ihes hes⟩

theorem coefficient_kept (es : List (Expr α)) : ∀ f ∈ coefficient es, P f := by
  unfold coefficient
  simp only
  split_ifs
  · simp
  · simpa using hP.const _

end Flatten

/-- What distribution takes apart and what it makes of it. -/
theorem eq_of_distribute? {fs ts : List (Expr α)} (h : distribute? fs = some ts) :
    ∃ other a b, fs = [other, .sum [a, b]] ∧
      ts = [Expr.productOf [other, a], Expr.productOf [other, b]] := by
  unfold distribute? at h
  split at h
  · next other a b =>
    split_ifs at h
    exact ⟨other, a, b, rfl, (Option.some.inj h).symm⟩
  · cases h

/-! ### Reciprocals -/

variable (hP : Lasting P) {solve : Solver α} (hs : Keeps P solve)
include hP hs

theorem negateExponent_kept {e r : Expr α} (he : P e) (h : negateExponent solve e = some r) :
    P r :=
  hs.product_pair (hP.const _) he h

theorem reciprocal_kept :
    (∀ (e : Expr α) (fs : List (Expr α)), P e → reciprocal solve e = some fs → ∀ f ∈ fs, P f) ∧
      ∀ (es fs : List (Expr α)), (∀ e ∈ es, P e) → reciprocals solve es = some fs →
        ∀ f ∈ fs, P f := by
  refine reciprocal.mutual_induct _ _ ?power ?product ?other ?nil ?cons
  case power =>
    intro b e fs he h
    simp only [reciprocal, Option.bind_eq_bind, Option.bind_eq_some_iff, Option.some.injEq] at h
    obtain ⟨negated, hnegated, rfl⟩ := h
    obtain ⟨hb, he⟩ := hP.power_iff.mp he
    simpa using hP.power_iff.mpr ⟨hb, negateExponent_kept hP hs he hnegated⟩
  case product =>
    intro es ih fs he h
    exact ih fs (hP.args he) (by rwa [reciprocal] at h)
  case other =>
    intro e hpower hproduct fs he h
    rw [reciprocal.eq_3 solve e hpower hproduct, Option.some.injEq] at h
    rw [← h]
    simpa using hP.recip he
  case nil =>
    intro fs _ h
    rw [reciprocals, Option.some.injEq] at h
    simp [← h]
  case cons =>
    intro e es ihe ihes fs hes h
    simp only [reciprocals, Option.bind_eq_bind, Option.bind_eq_some_iff, Option.some.injEq] at h
    obtain ⟨first, hfirst, rest, hrest, rfl⟩ := h
    obtain ⟨he, hes⟩ := List.forall_mem_cons.mp hes
    exact List.forall_mem_append.mpr ⟨ihe first he hfirst, ihes rest hes hrest⟩

theorem expandFractions_factored : ∀ (es fs : List (Expr α)), (∀ e ∈ es, Factored P e) →
    expandFractions solve es = some fs → ∀ f ∈ fs, Factored P f := by
  refine expandFractions.induct _ ?nil ?fraction ?other
  case nil =>
    intro fs _ h
    rw [expandFractions, Option.some.injEq] at h
    simp [← h]
  case fraction =>
    intro num den es ih fs hes h
    simp only [expandFractions, Option.bind_eq_bind, Option.bind_eq_some_iff,
      Option.some.injEq] at h
    obtain ⟨below, hbelow, rest, hrest, rfl⟩ := h
    obtain ⟨he, hes⟩ := List.forall_mem_cons.mp hes
    obtain ⟨hnum, hden⟩ := hP.fraction_iff.mp (he.of_not_product (by simp))
    have hfirst : ∀ f ∈ num :: below, P f :=
      List.forall_mem_cons.mpr ⟨hnum, (reciprocal_kept hP hs).1 den below hden hbelow⟩
    exact List.forall_mem_append.mpr ⟨Factored.of_all hfirst, ih rest hes hrest⟩
  case other =>
    intro e es he ih fs hes h
    rw [expandFractions.eq_3 solve e es he] at h
    simp only [Option.bind_eq_bind, Option.bind_eq_some_iff, Option.some.injEq] at h
    obtain ⟨rest, hrest, rfl⟩ := h
    obtain ⟨hfirst, hes⟩ := List.forall_mem_cons.mp hes
    exact List.forall_mem_cons.mpr ⟨hfirst, ih rest hes hrest⟩

theorem asPowers_kept : ∀ (es fs : List (Expr α)), (∀ e ∈ es, P e) →
    asPowers solve es = some fs → ∀ f ∈ fs, P f := by
  refine asPowers.induct _ ?nil ?power ?other
  case nil =>
    intro fs _ h
    rw [asPowers, Option.some.injEq] at h
    simp [← h]
  case power =>
    intro b e es ih fs hes h
    simp only [asPowers, Option.bind_eq_bind, Option.bind_eq_some_iff, Option.some.injEq] at h
    obtain ⟨f, hf, rest, hrest, rfl⟩ := h
    obtain ⟨hpower, hes⟩ := List.forall_mem_cons.mp hes
    exact List.forall_mem_cons.mpr ⟨hs.step_kept hpower hf, ih rest hes hrest⟩
  case other =>
    intro e es he ih fs hes h
    rw [asPowers.eq_3 solve e es he] at h
    simp only [Option.bind_eq_bind, Option.bind_eq_some_iff, Option.some.injEq] at h
    obtain ⟨b, hb, rest, hrest, rfl⟩ := h
    obtain ⟨hfirst, hes⟩ := List.forall_mem_cons.mp hes
    have hpower := hP.power_iff.mpr ⟨hs.step_kept hfirst hb, hP.const Scalar.one⟩
    exact List.forall_mem_cons.mpr ⟨hpower, ih rest hes hrest⟩

/-! ### Like bases -/

namespace LikeBases

/-- A group of powers of a base with the property to exponents with the property. -/
def Kept (P : Expr α → Prop) (g : LikeBases α) : Prop := P g.base ∧ ∀ e ∈ g.exponents, P e

omit hP hs in
theorem add_kept {b e : Expr α} (hb : P b) (he : P e) : ∀ {gs : List (LikeBases α)},
    (∀ g ∈ gs, Kept P g) → ∀ g ∈ add b e gs, Kept P g
  | [], _ => by simpa [add, Kept] using ⟨hb, he⟩
  | g :: gs, hgs => by
    obtain ⟨hg, hrest⟩ := List.forall_mem_cons.mp hgs
    unfold add
    split_ifs
    · have hexponents := List.forall_mem_append.mpr ⟨hg.2, List.forall_mem_singleton.mpr he⟩
      exact List.forall_mem_cons.mpr ⟨⟨hg.1, hexponents⟩, hrest⟩
    · exact List.forall_mem_cons.mpr ⟨hg, add_kept hb he hrest⟩

omit hP hs in
theorem collect_kept {ps : List (Expr α × Expr α)} (hps : ∀ p ∈ ps, P p.1 ∧ P p.2) :
    ∀ g ∈ collect ps, Kept P g :=
  List.foldlRecOn (motive := fun gs : List (LikeBases α) => ∀ g ∈ gs, Kept P g) ps _ (by simp)
    fun _ ih p hp => add_kept (hps p hp).1 (hps p hp).2 ih

theorem toPowers_kept : ∀ {gs : List (LikeBases α)} {fs : List (Expr α)},
    (∀ g ∈ gs, Kept P g) → toPowers solve gs = some fs → ∀ f ∈ fs, P f
  | [], fs, _, h => by
    rw [toPowers, Option.some.injEq] at h
    simp [← h]
  | g :: gs, fs, hgs, h => by
    simp only [toPowers, Option.bind_eq_bind, Option.bind_eq_some_iff, Option.some.injEq] at h
    obtain ⟨e, he, rest, hrest, rfl⟩ := h
    obtain ⟨hg, hgs⟩ := List.forall_mem_cons.mp hgs
    have hpower := hP.power_iff.mpr ⟨hg.1, hs.sum hg.2 he⟩
    exact List.forall_mem_cons.mpr ⟨hpower, toPowers_kept hgs hrest⟩

end LikeBases

theorem combineLikeBases_kept {es fs : List (Expr α)} (hes : ∀ e ∈ es, P e)
    (h : combineLikeBases solve (es.filterMap power?) = some fs) : ∀ f ∈ fs, P f := by
  refine LikeBases.toPowers_kept hP hs (LikeBases.collect_kept fun p hp => ?_) h
  obtain ⟨e, he, hpower⟩ := List.mem_filterMap.mp hp
  unfold power? at hpower
  split at hpower
  · rw [← Option.some.inj hpower]
    exact hP.power_iff.mp (hes _ he)
  · cases hpower

/-! ### The rule -/

theorem denominators_kept : ∀ {fs ds : List (Expr α)}, (∀ f ∈ fs, P f) →
    denominators solve fs = some ds → ∀ d ∈ ds, P d := by
  intro fs
  refine denominators.induct (fun fs => ∀ {ds}, (∀ f ∈ fs, P f) →
    denominators solve fs = some ds → ∀ d ∈ ds, P d) ?nil ?power ?other fs
  case nil =>
    intro ds _ h
    rw [denominators, Option.some.injEq] at h
    simp [← h]
  case power =>
    intro b e es ih ds hfs h
    simp only [denominators, Option.bind_eq_bind, Option.bind_eq_some_iff, Option.some.injEq] at h
    obtain ⟨negated, hnegated, d, hd, rest, hrest, rfl⟩ := h
    obtain ⟨hpower, hfs⟩ := List.forall_mem_cons.mp hfs
    obtain ⟨hb, he⟩ := hP.power_iff.mp hpower
    have hinverse := hP.power_iff.mpr ⟨hb, negateExponent_kept hP hs he hnegated⟩
    exact List.forall_mem_cons.mpr ⟨hs.step_kept hinverse hd, ih hfs hrest⟩
  case other =>
    intro f es hf ih ds hfs h
    rw [denominators.eq_3 solve f es hf] at h
    exact ih (List.forall_mem_cons.mp hfs).2 h

theorem assemble_kept {fs : List (Expr α)} {r : Expr α}
    (hsorted : fs.Pairwise fun f g => Expr.mayPrecede .product f g = true) (hfs : ∀ f ∈ fs, P f)
    (h : assemble solve fs = some r) : P r := by
  have habove : ∀ f ∈ fs.filter fun f => !isBelow f, P f := fun f hf =>
    hfs f (List.mem_of_mem_filter hf)
  unfold assemble at h
  simp only at h
  split_ifs at h with hnone hone
  · rw [← Option.some.inj h]
    exact hP.downgrade_product (hsorted.filter _) habove
  all_goals
    simp only [Option.bind_eq_bind, Option.bind_eq_some_iff, Option.some.injEq] at h
    obtain ⟨dens, hdens, num, hnum, den, hden, rfl⟩ := h
    have hbelow := denominators_kept hP hs (fun f hf => hfs f (List.mem_of_mem_filter hf)) hdens
    refine hP.fraction_iff.mpr ⟨?_, hs.product hbelow hden⟩
  · rw [← hnum]
    exact hP.const _
  · exact hs.product habove hnum

variable [OrderedScalar α]

theorem multiplyPowers_kept {fs : List (Expr α)} {r : Expr α} (hfs : ∀ f ∈ fs, Factored P f)
    (h : multiplyPowers solve fs = some r) : P r := by
  simp only [multiplyPowers, Option.bind_eq_bind, Option.bind_eq_some_iff] at h
  obtain ⟨expanded, hexpanded, pieces, hpieces, powers, hpowers, stepped, hstepped, h⟩ := h
  have hflat := (factorsOf_kept hP).2 _ (expandFractions_factored hP hs _ _ hfs hexpanded)
  have hpieces := asPowers_kept hP hs _ _ (fun f hf => hflat f (List.mem_of_mem_filter hf)) hpieces
  have hleft : ∀ f ∈ pieces.filter fun e => (power? e).isNone, P f := fun f hf =>
    hpieces f (List.mem_of_mem_filter hf)
  have hpowers := List.forall_mem_append.mpr
    ⟨coefficient_kept hP (factorsOfList expanded), combineLikeBases_kept hP hs hpieces hpowers⟩
  have hall := List.forall_mem_append.mpr ⟨hpowers, hleft⟩
  have hstepped := (hs.steps (Factored.of_all hall) hstepped).2
  refine assemble_kept hP hs (Expr.arrange_pairwise .product stepped) (fun f hf => ?_) h
  exact hstepped f ((Expr.arrange_perm .product stepped).mem_iff.mp hf)

/-- What becomes of factored factors has the property, unless it is one of them. If there is a sum
among them, a factor may be distributed over it, so they need the property themselves then. -/
theorem multiplyFactors_mem_or {fs : List (Expr α)} {r : Expr α} (hfs : ∀ f ∈ fs, Factored P f)
    (hsum : ∀ ts, Expr.sum ts ∈ fs → ∀ f ∈ fs, P f) (h : multiplyFactors solve fs = some r) :
    r ∈ fs ∨ P r := by
  unfold multiplyFactors at h
  split at h
  · rw [← Option.some.inj h]
    exact .inl List.mem_cons_self
  · split_ifs at h
    · rw [← Option.some.inj h]
      exact .inr (hP.const _)
    · split at h
      · rw [← Option.some.inj h]
        exact .inr (hP.const _)
      · next hone =>
        rw [← Option.some.inj h]
        exact .inl (List.mem_of_mem_filter (hone ▸ List.mem_singleton_self _))
      · rw [← Option.some.inj h]
        exact .inr (hP.const _)
      · have hmem : ∀ f ∈ Expr.ascending (fs.filter fun f => !f.isOne), f ∈ fs := fun f hf =>
          List.mem_of_mem_filter ((Expr.arrange_perm .product _).mem_iff.mp hf)
        simp only at h
        split at h
        · next hdist =>
          obtain ⟨other, a, b, hsorted, rfl⟩ := eq_of_distribute? hdist
          rw [hsorted] at hmem
          have hkept := fun f hf => hsum [a, b] (hmem _ (by simp)) f (hmem f hf)
          have hterms := hP.args (hkept (.sum [a, b]) (by simp))
          have hpair : ∀ t ∈ [a, b], ∀ f ∈ Expr.ascending [other, t], P f := by
            intro t ht f hf
            have hf : f = other ∨ f = t := by
              simpa using (Expr.arrange_perm .product [other, t]).mem_iff.mp hf
            rcases hf with rfl | rfl
            · exact hkept f (by simp)
            · exact hterms f ht
          exact .inr (hs.sum_products (hpair a (by simp)) (hpair b (by simp)) h)
        · exact .inr (multiplyPowers_kept hP hs (fun f hf => hfs f (hmem f hf)) h)

/-- **The product of factors with a lasting property has the property.** -/
theorem multiplyFactors_keeps {fs : List (Expr α)} {r : Expr α} (hfs : ∀ f ∈ fs, P f)
    (h : multiplyFactors solve fs = some r) : P r :=
  (multiplyFactors_mem_or hP hs (Factored.of_all hfs) (fun _ _ => hfs) h).elim (hfs r) id

/-- A coefficient and a product of factors with the property. -/
theorem multiplyFactors_scaled {c : α} {fs : List (Expr α)} {r : Expr α} (hfs : ∀ f ∈ fs, P f)
    (h : multiplyFactors solve [.const c, .product fs] = some r) : Factored P r := by
  have hfactored : ∀ f ∈ [Expr.const c, .product fs], Factored P f := by
    simpa using ⟨Or.inl (hP.const c), Factored.product hfs⟩
  rcases multiplyFactors_mem_or hP hs hfactored (by simp) h with hr | hr
  · exact hfactored r hr
  · exact .inl hr

end SymbolicAlgebra.Simplify
