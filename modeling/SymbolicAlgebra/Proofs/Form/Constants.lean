import Mathlib.Data.List.Basic
import SymbolicAlgebra.Proofs.Order.Sort
import SymbolicAlgebra.Simplify.Solve

/-! # Constants stay constants

A step leaves a constant as it is, and sums and products of constants are constants, at any depth
(`constants_solve`). So an exponent that is a number is still one after it has been added to others
or multiplied by them. -/

namespace SymbolicAlgebra

variable {α : Type}

namespace Expr

theorem isConst_iff_exists {e : Expr α} : e.isConst = true ↔ ∃ c, e = const c := by
  cases e <;> simp [isConst, constant?]

end Expr

/-- **A solver that makes constants of constants.** -/
structure KeepsConstants (solve : Solver α) : Prop where
  step {c : α} {r : Expr α} : solve (.step (.const c)) = some r → r = .const c
  sum {ts : List (Expr α)} {r : Expr α} : (∀ t ∈ ts, t.isConst = true) →
    solve (.sum ts) = some r → r.isConst = true
  product {fs : List (Expr α)} {r : Expr α} : (∀ f ∈ fs, f.isConst = true) →
    solve (.product fs) = some r → r.isConst = true

namespace Simplify

/-! ### Lists of constants -/

theorem termsOfList_constants : ∀ {ts : List (Expr α)}, (∀ t ∈ ts, t.isConst = true) →
    termsOfList ts = ts
  | [], _ => rfl
  | t :: ts, h => by
    obtain ⟨ht, hts⟩ := List.forall_mem_cons.mp h
    obtain ⟨c, rfl⟩ := Expr.isConst_iff_exists.mp ht
    rw [termsOfList, termsOfList_constants hts]
    rfl

theorem factorsOfList_constants : ∀ {fs : List (Expr α)}, (∀ f ∈ fs, f.isConst = true) →
    factorsOfList fs = fs
  | [], _ => rfl
  | f :: fs, h => by
    obtain ⟨hf, hfs⟩ := List.forall_mem_cons.mp h
    obtain ⟨c, rfl⟩ := Expr.isConst_iff_exists.mp hf
    rw [factorsOfList, factorsOfList_constants hfs]
    rfl

theorem nonConstants_constants {es : List (Expr α)} (h : ∀ e ∈ es, e.isConst = true) :
    nonConstants es = [] := by
  simpa [nonConstants, List.filter_eq_nil_iff] using h

variable [Scalar α]

theorem expandFractions_constants {solve : Solver α} : ∀ {fs : List (Expr α)},
    (∀ f ∈ fs, f.isConst = true) → expandFractions solve fs = some fs
  | [], _ => rfl
  | f :: fs, h => by
    obtain ⟨hf, hfs⟩ := List.forall_mem_cons.mp h
    obtain ⟨c, rfl⟩ := Expr.isConst_iff_exists.mp hf
    rw [expandFractions, expandFractions_constants hfs]
    · rfl
    · exact nofun

/-- At most one constant: what a total that may be left out comes to. -/
theorem length_constantTerm_le (es : List (Expr α)) :
    constantTerm es = [] ∨ ∃ c, constantTerm es = [.const c] := by
  unfold constantTerm
  simp only
  split_ifs
  · exact .inl rfl
  · exact .inr ⟨_, rfl⟩

theorem length_coefficient_le (es : List (Expr α)) :
    coefficient es = [] ∨ ∃ c, coefficient es = [.const c] := by
  unfold coefficient
  simp only
  split_ifs
  · exact .inl rfl
  · exact .inr ⟨_, rfl⟩

/-! ### Sums and products -/

variable {solve : Solver α} (hs : KeepsConstants solve)
include hs

omit [Scalar α] in
/-- A step at no or one constant. -/
theorem steps_total {es rs : List (Expr α)} (hes : es = [] ∨ ∃ c, es = [.const c])
    (h : solve.steps es = some rs) : rs = es := by
  rcases hes with rfl | ⟨c, rfl⟩
  · rw [Solver.steps, Option.some.injEq] at h
    exact h.symm
  · simp only [Solver.steps, Option.bind_eq_bind, Option.bind_eq_some_iff, Option.some.injEq] at h
    obtain ⟨r, hr, rs', rfl, rfl⟩ := h
    rw [hs.step hr]

theorem addNonzero_constants {ts : List (Expr α)} {r : Expr α} (hts : ∀ t ∈ ts, t.isConst = true)
    (h : addNonzero solve ts = some r) : r.isConst = true := by
  simp only [addNonzero, Option.bind_eq_bind, Option.bind_eq_some_iff, Option.some.injEq] at h
  obtain ⟨others, hothers, stepped, hstepped, rfl⟩ := h
  have hsorted : ∀ t ∈ Expr.ascending ts, t.isConst = true := fun t ht =>
    hts t (StableSort.mem_sort.mp ht)
  rw [termsOfList_constants hsorted] at hothers hstepped
  rw [nonConstants_constants hsorted] at hothers
  obtain rfl : others = [] := (Option.some.inj hothers).symm
  rw [List.append_nil] at hstepped
  obtain rfl := steps_total hs (length_constantTerm_le _) hstepped
  rcases length_constantTerm_le (Expr.ascending ts) with hterm | ⟨c, hterm⟩
  · rw [hterm]
    rfl
  · rw [hterm]
    rfl

theorem addTerms_constants {ts : List (Expr α)} {r : Expr α} (hts : ∀ t ∈ ts, t.isConst = true)
    (h : addTerms solve ts = some r) : r.isConst = true := by
  have hnonzero : ∀ t ∈ ts.filter fun t => !t.isZero, t.isConst = true := fun t ht =>
    hts t (List.mem_of_mem_filter ht)
  unfold addTerms at h
  split at h
  · next t =>
    rw [← Option.some.inj h]
    exact hts t (List.mem_singleton_self t)
  · split at h
    · rw [← Option.some.inj h]
      rfl
    · next t hone =>
      rw [← Option.some.inj h]
      exact hnonzero t (by rw [hone]; exact List.mem_singleton_self t)
    · rw [← Option.some.inj h]
      rfl
    · exact addNonzero_constants hs hnonzero h

theorem multiplyPowers_constants {fs : List (Expr α)} {r : Expr α}
    (hfs : ∀ f ∈ fs, f.isConst = true) (h : multiplyPowers solve fs = some r) :
    r.isConst = true := by
  rw [multiplyPowers, expandFractions_constants hfs] at h
  simp only [Option.bind_eq_bind, Option.bind_some, factorsOfList_constants hfs,
    nonConstants_constants hfs, asPowers, List.filterMap_nil, List.filter_nil] at h
  simp only [combineLikeBases, LikeBases.collect, List.foldl_nil, LikeBases.toPowers,
    Option.bind_some, List.append_nil, Option.bind_eq_some_iff] at h
  obtain ⟨stepped, hstepped, h⟩ := h
  obtain rfl := steps_total hs (length_coefficient_le fs) hstepped
  rcases length_coefficient_le fs with hterm | ⟨c, hterm⟩
  · rw [hterm] at h
    obtain rfl := Option.some.inj h
    rfl
  · rw [hterm] at h
    obtain rfl := Option.some.inj h
    rfl

theorem multiplyFactors_constants {fs : List (Expr α)} {r : Expr α}
    (hfs : ∀ f ∈ fs, f.isConst = true) (h : multiplyFactors solve fs = some r) :
    r.isConst = true := by
  have hothers : ∀ f ∈ fs.filter fun f => !f.isOne, f.isConst = true := fun f hf =>
    hfs f (List.mem_of_mem_filter hf)
  unfold multiplyFactors at h
  split at h
  · next f =>
    rw [← Option.some.inj h]
    exact hfs f (List.mem_singleton_self f)
  · split_ifs at h
    · rw [← Option.some.inj h]
      rfl
    · split at h
      · rw [← Option.some.inj h]
        rfl
      · next f hone =>
        rw [← Option.some.inj h]
        exact hothers f (by rw [hone]; exact List.mem_singleton_self f)
      · rw [← Option.some.inj h]
        rfl
      · have hsorted : ∀ f ∈ Expr.ascending _, f.isConst = true := fun f hf =>
          hothers f (StableSort.mem_sort.mp hf)
        simp only at h
        split at h
        · next ts hdist =>
          -- no constant is a sum
          unfold distribute? at hdist
          split at hdist
          · next hpair =>
            rw [hpair] at hsorted
            cases hsorted _ (List.mem_cons_of_mem _ List.mem_cons_self)
          · cases hdist
        · exact multiplyPowers_constants hs hsorted h

end Simplify

/-- **Constants stay constants** for the solvers of all depths. -/
theorem constants_solve [Scalar α] : ∀ depth : Nat, KeepsConstants (Simplify.solve (α := α) depth)
  | 0 =>
    { step := fun h => nomatch h
      sum := fun _ h => nomatch h
      product := fun _ h => nomatch h }
  | depth + 1 =>
    { step := fun h => (Option.some.inj h).symm
      sum := fun hts h => Simplify.addTerms_constants (constants_solve depth) hts h
      product := fun hfs h => Simplify.multiplyFactors_constants (constants_solve depth) hfs h }

end SymbolicAlgebra
