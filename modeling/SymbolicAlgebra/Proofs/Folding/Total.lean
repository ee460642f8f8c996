import SymbolicAlgebra.Proofs.Folding.Laws
import SymbolicAlgebra.Proofs.Form.Constants

/-! # Totals of constants

What sums and products of constants are folded to, next to what they evaluate to. Folding leaves out
zeros and ones, which changes no total. It adds up more than two numbers in ascending order, and
makes a product with a zero zero, whatever the other factors are. -/

namespace SymbolicAlgebra

variable {α : Type} [Scalar α]

namespace Scalar

/-- The numbers that are not zero. -/
def nonzero (xs : List α) : List α := xs.filter fun x => !eq x zero

/-- The numbers that are not one. -/
def nonone (xs : List α) : List α := xs.filter fun x => !eq x one

variable [UnitalScalar α]

theorem foldl_add_congr : ∀ (xs : List α) {a b : α}, Same a b →
    Same (xs.foldl add a) (xs.foldl add b)
  | [], _, _, h => h
  | x :: xs, _, _, h => foldl_add_congr xs (UnitalScalar.add h (.refl x))

theorem foldl_mul_congr : ∀ (xs : List α) {a b : α}, Same a b →
    Same (xs.foldl mul a) (xs.foldl mul b)
  | [], _, _, h => h
  | x :: xs, _, _, h => foldl_mul_congr xs (UnitalScalar.mul h (.refl x))

/-- Zeros can be left out of a sum. -/
theorem foldl_add_nonzero : ∀ (xs : List α) (a : α),
    Same (xs.foldl add a) ((nonzero xs).foldl add a)
  | [], a => .refl a
  | x :: xs, a => by
    rcases hx : eq x zero
    · rw [nonzero, List.filter_cons_of_pos (by rw [hx]; rfl)]
      exact foldl_add_nonzero xs (add a x)
    · rw [nonzero, List.filter_cons_of_neg (by rw [hx]; decide)]
      exact (foldl_add_congr xs (UnitalScalar.add_zero hx a)).trans (foldl_add_nonzero xs a)

/-- Ones can be left out of a product. -/
theorem foldl_mul_nonone : ∀ (xs : List α) (a : α),
    Same (xs.foldl mul a) ((nonone xs).foldl mul a)
  | [], a => .refl a
  | x :: xs, a => by
    rcases hx : eq x one
    · rw [nonone, List.filter_cons_of_pos (by rw [hx]; rfl)]
      exact foldl_mul_nonone xs (mul a x)
    · rw [nonone, List.filter_cons_of_neg (by rw [hx]; decide)]
      exact (foldl_mul_congr xs (UnitalScalar.mul_one hx a)).trans (foldl_mul_nonone xs a)

/-- A product that has reached zero stays there, unless it is not a number. -/
theorem foldl_mul_zero : ∀ (xs : List α) {a : α}, eq a zero = true ∨ isNaN a = true →
    eq (xs.foldl mul a) zero = true ∨ isNaN (xs.foldl mul a) = true
  | [], _, h => h
  | x :: xs, a, h => by
    refine foldl_mul_zero xs ?_
    rcases h with h | h
    · exact UnitalScalar.zero_mul h x
    · exact .inr (UnitalScalar.isNaN_mul h x)

/-- **A product with a zero** is zero or not a number. -/
theorem product_of_zero {xs : List α} {z : α} (hz : eq z zero = true) (hmem : z ∈ xs) :
    eq (product xs) zero = true ∨ isNaN (product xs) = true := by
  obtain ⟨before, after, rfl⟩ := List.append_of_mem hmem
  rw [product, List.foldl_append, List.foldl_cons]
  exact foldl_mul_zero after (UnitalScalar.mul_zero hz _)

end Scalar

/-! ### Folding -/

namespace Simplify

open Scalar (Same nonzero nonone)

omit [Scalar α] in
theorem isConst_map (xs : List α) : ∀ e ∈ xs.map Expr.const, e.isConst = true :=
  List.forall_mem_map.mpr fun _ _ => rfl

omit [Scalar α] in
theorem exists_map_const {es : List (Expr α)} (h : ∀ e ∈ es, e.isConst = true) :
    ∃ xs : List α, es = xs.map .const := by
  induction es with
  | nil => exact ⟨[], rfl⟩
  | cons e es ih =>
    obtain ⟨he, hes⟩ := List.forall_mem_cons.mp h
    obtain ⟨x, rfl⟩ := Expr.isConst_iff_exists.mp he
    obtain ⟨xs, rfl⟩ := ih hes
    exact ⟨x :: xs, rfl⟩

omit [Scalar α] in
theorem constantsOf_map (xs : List α) : constantsOf (xs.map .const) = xs := by
  induction xs with
  | nil => rfl
  | cons x xs ih =>
    rw [List.map_cons, constantsOf, List.filterMap_cons]
    exact congrArg (x :: ·) ih

theorem filter_isZero_map (xs : List α) :
    (xs.map Expr.const).filter (fun t => !t.isZero) = (nonzero xs).map .const := by
  rw [List.filter_map]
  rfl

theorem filter_isOne_map (xs : List α) :
    (xs.map Expr.const).filter (fun t => !t.isOne) = (nonone xs).map .const := by
  rw [List.filter_map]
  rfl

variable [UnitalScalar α] {solve : Solver α} (hs : KeepsConstants solve)
include hs

/-- **More than two constants** are added in ascending order. -/
theorem addNonzero_value {ts : List (Expr α)} {c : α} (hts : ∀ t ∈ ts, t.isConst = true)
    (h : addNonzero solve ts = some (.const c)) :
    Same c (Scalar.sum (constantsOf (Expr.ascending ts))) := by
  have hsorted : ∀ t ∈ Expr.ascending ts, t.isConst = true := fun t ht =>
    hts t (StableSort.mem_sort.mp ht)
  simp only [addNonzero, Option.bind_eq_bind, Option.bind_eq_some_iff, Option.some.injEq] at h
  obtain ⟨others, hothers, stepped, hstepped, hc⟩ := h
  rw [termsOfList_constants hsorted] at hothers hstepped
  rw [nonConstants_constants hsorted] at hothers
  obtain rfl : others = [] := (Option.some.inj hothers).symm
  rw [List.append_nil] at hstepped
  obtain rfl := steps_total hs (length_constantTerm_le _) hstepped
  unfold constantTerm at hc
  simp only at hc
  split_ifs at hc with hzero
  · obtain rfl := Expr.const.inj hc
    have hsame : Same (Scalar.sum (constantsOf (Expr.ascending ts))) Scalar.zero :=
      Scalar.same_of_eq hzero
    exact hsame.symm
  · rw [← Expr.const.inj hc]
    exact .refl _

/-- **A sum of constants** is folded to its value if at most two of them are not zero, and otherwise
to the value of those in ascending order. -/
theorem addTerms_value {xs : List α} {c : α}
    (h : addTerms solve (xs.map .const) = some (.const c)) :
    ((nonzero xs).length ≤ 2 → Same c (Scalar.sum xs)) ∧
      (2 < (nonzero xs).length →
        Same c (Scalar.sum (constantsOf (Expr.ascending ((nonzero xs).map .const))))) := by
  have hdrop : Same (Scalar.sum xs) (Scalar.sum (nonzero xs)) :=
    Scalar.foldl_add_nonzero xs Scalar.negZero
  have hfirst (x : α) : Same (Scalar.add Scalar.negZero x) x :=
    UnitalScalar.zero_add UnitalScalar.negZero_eq_zero x
  unfold addTerms at h
  split at h
  · next t hone =>
    obtain ⟨x, rfl, rfl⟩ := List.map_eq_singleton_iff.mp hone
    obtain rfl := Expr.const.inj (Option.some.inj h)
    refine ⟨fun _ => (hfirst x).symm, fun hlong => ?_⟩
    have hle := List.length_filter_le (fun x => !Scalar.eq x Scalar.zero) [x]
    rw [List.length_singleton] at hle
    exact absurd hlong (by rw [nonzero]; omega)
  · rw [filter_isZero_map] at h
    generalize nonzero xs = ys at h hdrop ⊢
    rcases ys with _ | ⟨a, _ | ⟨b, _ | ⟨d, rest⟩⟩⟩
    · obtain rfl := Expr.const.inj (Option.some.inj h)
      have hempty : Same (Scalar.sum []) (Scalar.zero : α) :=
        Scalar.same_of_eq UnitalScalar.negZero_eq_zero
      exact ⟨fun _ => (hdrop.trans hempty).symm, fun hlong => absurd hlong (by simp)⟩
    · obtain rfl := Expr.const.inj (Option.some.inj h)
      exact ⟨fun _ => (hdrop.trans (hfirst a)).symm, fun hlong => absurd hlong (by simp)⟩
    · obtain rfl := Expr.const.inj (Option.some.inj h)
      have hpair := UnitalScalar.add (hfirst a) (.refl b)
      exact ⟨fun _ => (hdrop.trans hpair).symm, fun hlong => absurd hlong (by simp)⟩
    · have hvalue := addNonzero_value hs (isConst_map (a :: b :: d :: rest)) h
      exact ⟨fun hshort => absurd hshort (by simp), fun _ => hvalue⟩

/-- **More than two constants** are multiplied in ascending order. -/
theorem multiplyPowers_value {fs : List (Expr α)} {c : α} (hfs : ∀ f ∈ fs, f.isConst = true)
    (h : multiplyPowers solve fs = some (.const c)) :
    Same c (Scalar.product (constantsOf fs)) := by
  rw [multiplyPowers, expandFractions_constants hfs] at h
  simp only [Option.bind_eq_bind, Option.bind_some, factorsOfList_constants hfs,
    nonConstants_constants hfs, asPowers, List.filterMap_nil, List.filter_nil] at h
  simp only [combineLikeBases, LikeBases.collect, List.foldl_nil, LikeBases.toPowers,
    Option.bind_some, List.append_nil, Option.bind_eq_some_iff] at h
  obtain ⟨stepped, hstepped, h⟩ := h
  obtain rfl := steps_total hs (length_coefficient_le fs) hstepped
  unfold coefficient at h
  simp only at h
  split_ifs at h with hone
  · obtain rfl := Expr.const.inj (Option.some.inj h)
    have hsame : Same (Scalar.product (constantsOf fs)) Scalar.one := Scalar.same_of_eq hone
    exact hsame.symm
  · rw [← Expr.const.inj (Option.some.inj h)]
    exact .refl _

omit [UnitalScalar α] hs in
theorem distribute?_constants {fs : List (Expr α)} (hfs : ∀ f ∈ fs, f.isConst = true) :
    distribute? fs = none := by
  unfold distribute?
  split
  · cases hfs _ (List.mem_cons_of_mem _ List.mem_cons_self)
  · rfl

/-- **A product of constants** in ascending order is folded to zero if one of them is zero, and
otherwise to its value. -/
theorem multiplyFactors_value {xs : List α} {c : α}
    (hsorted : xs.length ≤ 2 ∨
      (xs.map Expr.const).Pairwise fun a b => Expr.mayPrecede .product a b = true)
    (h : multiplyFactors solve (xs.map .const) = some (.const c)) :
    ((∃ x ∈ xs, Scalar.eq x Scalar.zero = true) → Scalar.eq c Scalar.zero = true) ∧
      ((∀ x ∈ xs, Scalar.eq x Scalar.zero = false) → Same c (Scalar.product xs)) := by
  have hdrop : Same (Scalar.product xs) (Scalar.product (nonone xs)) :=
    Scalar.foldl_mul_nonone xs Scalar.one
  have hfirst (x : α) : Same (Scalar.mul Scalar.one x) x :=
    UnitalScalar.one_mul UnitalScalar.one_eq_one x
  unfold multiplyFactors at h
  split at h
  · next t hone =>
    obtain ⟨x, rfl, rfl⟩ := List.map_eq_singleton_iff.mp hone
    obtain rfl := Expr.const.inj (Option.some.inj h)
    exact ⟨fun ⟨y, hy, hzero⟩ => List.mem_singleton.mp hy ▸ hzero, fun _ => (hfirst x).symm⟩
  · split_ifs at h with hany
    · obtain rfl := Expr.const.inj (Option.some.inj h)
      refine ⟨fun _ => UnitalScalar.zero_eq_zero, fun hnone => ?_⟩
      obtain ⟨f, hf, hzero⟩ := List.any_eq_true.mp hany
      obtain ⟨x, hx, rfl⟩ := List.mem_map.mp hf
      have hfalse : Scalar.eq x Scalar.zero = true := hzero
      rw [hnone x hx] at hfalse
      cases hfalse
    · refine ⟨fun ⟨x, hx, hzero⟩ => absurd ?_ hany, fun _ => ?_⟩
      · exact List.any_eq_true.mpr ⟨.const x, List.mem_map_of_mem hx, hzero⟩
      · rw [filter_isOne_map] at h
        have hsub : (nonone xs).Sublist xs := List.filter_sublist
        rcases hcase : nonone xs with _ | ⟨a, _ | ⟨b, _ | ⟨d, rest⟩⟩⟩
        · rw [hcase] at h hdrop
          obtain rfl := Expr.const.inj (Option.some.inj h)
          exact hdrop.symm
        · rw [hcase] at h hdrop
          obtain rfl := Expr.const.inj (Option.some.inj h)
          exact (hdrop.trans (hfirst a)).symm
        · rw [hcase] at h hdrop
          obtain rfl := Expr.const.inj (Option.some.inj h)
          exact (hdrop.trans (UnitalScalar.mul (hfirst a) (.refl b))).symm
        · have hpairwise := hsorted.resolve_left fun hshort => by
            have hle := hsub.length_le
            rw [hcase] at hle
            simp at hle
            omega
          have hothers := hpairwise.sublist (hsub.map Expr.const)
          have hself : Expr.ascending ((nonone xs).map Expr.const) = (nonone xs).map .const :=
            StableSort.sort_eq_self hothers
          have hpowers : multiplyPowers solve ((nonone xs).map .const) = some (.const c) := by
            have hnone := distribute?_constants (isConst_map (nonone xs))
            rw [hcase] at h hself hnone ⊢
            simp only [List.map_cons] at h hself hnone ⊢
            rwa [hself, hnone] at h
          have hvalue := multiplyPowers_value hs (isConst_map _) hpowers
          rw [constantsOf_map] at hvalue
          exact hvalue.trans hdrop.symm

end Simplify

end SymbolicAlgebra
