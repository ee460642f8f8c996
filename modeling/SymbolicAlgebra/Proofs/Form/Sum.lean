import SymbolicAlgebra.Proofs.Form.Lasting
import SymbolicAlgebra.Simplify.Sum

/-! # Sums keep what lasts

The sum of terms with a lasting property has it too (`addTerms_keeps`). The terms in between may be
factored only: a coefficient is split off the factors of a term and put in front of them again, and
what that gives is taken one step further before it becomes a term of the result. -/

namespace SymbolicAlgebra.Simplify

variable {α : Type} {P : Expr α → Prop}

/-! ### Flattening and constants -/

variable [Scalar α] (hP : Lasting P)
include hP

theorem termsOf_factored :
    (∀ e : Expr α, Factored P e → ∀ t ∈ termsOf e, Factored P t) ∧
      ∀ ts : List (Expr α), (∀ t ∈ ts, Factored P t) → ∀ t ∈ termsOfList ts, Factored P t := by
  refine termsOf.mutual_induct _ _ ?sum ?other ?nil ?cons
  case sum =>
    intro ts ih h
    rw [termsOf]
    exact ih (Factored.of_all (hP.args (h.of_not_product (by simp))))
  case other =>
    intro e he h
    rw [termsOf.eq_2 e he]
    simpa using h
  case nil =>
    intro h
    rwa [termsOfList]
  case cons =>
    intro t ts iht ihts h
    obtain ⟨ht, hts⟩ := List.forall_mem_cons.mp h
    rw [termsOfList]
    exact List.forall_mem_append.mpr ⟨iht ht, ihts hts⟩

theorem constantTerm_kept (es : List (Expr α)) : ∀ t ∈ constantTerm es, P t := by
  unfold constantTerm
  simp only
  split_ifs
  · simp
  · simpa using hP.const _

/-! ### Like terms -/

theorem splitCoefficient_kept {t : Expr α} (ht : Factored P t) :
    ∀ f ∈ (splitCoefficient t).2, P f := by
  unfold splitCoefficient
  split
  · exact fun f hf => ht.factors hP f (List.mem_cons_of_mem _ hf)
  · exact ht.factors hP
  · next hother => simpa using ht.of_not_product hother

namespace LikeTerms

omit hP in
theorem add_kept {c : α} {fs : List (Expr α)} (hfs : ∀ f ∈ fs, P f) :
    ∀ {gs : List (LikeTerms α)}, (∀ g ∈ gs, ∀ f ∈ g.factors, P f) →
      ∀ g ∈ add c fs gs, ∀ f ∈ g.factors, P f
  | [], _ => by simpa [add] using hfs
  | g :: gs, hgs => by
    obtain ⟨hg, hrest⟩ := List.forall_mem_cons.mp hgs
    unfold add
    split_ifs
    · exact List.forall_mem_cons.mpr ⟨hg, hrest⟩
    · exact List.forall_mem_cons.mpr ⟨hg, add_kept hfs hrest⟩

/-- **The factors of the groups** are factors of the terms. -/
theorem collect_kept {ts : List (Expr α)} (hts : ∀ t ∈ ts, Factored P t) :
    ∀ g ∈ collect ts, ∀ f ∈ g.factors, P f := by
  have hfold : ∀ (ts : List (Expr α)) (gs : List (LikeTerms α)), (∀ t ∈ ts, Factored P t) →
      (∀ g ∈ gs, ∀ f ∈ g.factors, P f) →
      ∀ g ∈ ts.foldl (fun groups t =>
        add (splitCoefficient t).1 (splitCoefficient t).2 groups) gs, ∀ f ∈ g.factors, P f := by
    intro ts
    induction ts with
    | nil => exact fun gs _ hgs => hgs
    | cons t ts ih =>
      intro gs hts hgs
      obtain ⟨ht, hts⟩ := List.forall_mem_cons.mp hts
      rw [List.foldl_cons]
      exact ih _ hts (add_kept (splitCoefficient_kept hP ht) hgs)
  exact hfold ts [] hts (by simp)

variable {solve : Solver α} (hs : Keeps P solve)
include hs

theorem toTerm_factored {g : LikeTerms α} {t : Expr α} (hg : ∀ f ∈ g.factors, P f)
    (h : g.toTerm solve = some t) : Factored P t := by
  unfold toTerm at h
  split_ifs at h
  · exact hs.scaled hg h
  · rw [← Option.some.inj h]
    exact .product (List.forall_mem_cons.mpr ⟨hP.const _, hg⟩)

theorem toTerms_factored : ∀ {gs : List (LikeTerms α)} {ts : List (Expr α)},
    (∀ g ∈ gs, ∀ f ∈ g.factors, P f) → toTerms solve gs = some ts → ∀ t ∈ ts, Factored P t
  | [], ts, _, h => by
    rw [toTerms, Option.some.injEq] at h
    simp [← h]
  | g :: gs, ts, hgs, h => by
    simp only [toTerms, Option.bind_eq_bind, Option.bind_eq_some_iff, Option.some.injEq] at h
    obtain ⟨t, ht, ts', hts, rfl⟩ := h
    obtain ⟨hg, hgs⟩ := List.forall_mem_cons.mp hgs
    exact List.forall_mem_cons.mpr ⟨toTerm_factored hP hs hg ht, toTerms_factored hgs hts⟩

end LikeTerms

/-! ### The rule -/

section Rule
variable {solve : Solver α} (hs : Keeps P solve)
include hs

theorem addNonzero_keeps {ts : List (Expr α)} {r : Expr α} (hts : ∀ t ∈ ts, Factored P t)
    (h : addNonzero solve ts = some r) : P r := by
  simp only [addNonzero, Option.bind_eq_bind, Option.bind_eq_some_iff, Option.some.injEq] at h
  obtain ⟨others, hothers, stepped, hstepped, rfl⟩ := h
  have hflat := (termsOf_factored hP).2 (Expr.ascending ts) fun t ht =>
    hts t ((Expr.arrange_perm .product ts).mem_iff.mp ht)
  have hrest := LikeTerms.toTerms_factored hP hs
    (LikeTerms.collect_kept hP fun t ht => hflat t (List.mem_of_mem_filter ht)) hothers
  have hall := List.forall_mem_append.mpr
    ⟨Factored.of_all (constantTerm_kept hP (termsOfList (Expr.ascending ts))), hrest⟩
  exact hP.downgrade_sumOf (hs.steps hall hstepped).2

/-- **The sum of terms with a lasting property has the property.** -/
theorem addTerms_keeps {ts : List (Expr α)} {r : Expr α} (hts : ∀ t ∈ ts, P t)
    (h : addTerms solve ts = some r) : P r := by
  have hnonzero : ∀ t ∈ ts.filter fun t => !t.isZero, P t := fun t ht =>
    hts t (List.mem_of_mem_filter ht)
  unfold addTerms at h
  split at h
  · next t =>
    rw [← Option.some.inj h]
    exact hts t (List.mem_singleton_self t)
  · split at h
    · rw [← Option.some.inj h]
      exact hP.const _
    · next t hone =>
      rw [← Option.some.inj h]
      exact hnonzero t (hone ▸ List.mem_singleton_self t)
    · rw [← Option.some.inj h]
      exact hP.const _
    · exact addNonzero_keeps hP hs (Factored.of_all hnonzero) h

/-- The sum of two products whose factors have the property. -/
theorem addTerms_products {fs gs : List (Expr α)} {r : Expr α} (hfs : ∀ f ∈ fs, P f)
    (hgs : ∀ g ∈ gs, P g) (h : addTerms solve [.product fs, .product gs] = some r) : P r := by
  have hadded : addNonzero solve [.product fs, .product gs] = some r := h
  refine addNonzero_keeps hP hs ?_ hadded
  simpa using ⟨Factored.product hfs, Factored.product hgs⟩

end Rule

end SymbolicAlgebra.Simplify
