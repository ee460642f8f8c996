import Mathlib.Data.List.Forall2
import Mathlib.Data.List.Perm.Basic
import Mathlib.Tactic.SplitIfs
import SymbolicAlgebra.Proofs.Form.Constants

/-! # Numbers among arguments

A step at a minimum or maximum parts its arguments into numbers and others, and folds the numbers.
Here is what parting does to the values of the arguments, and what folding can come to
(`foldConstants_cases`). -/

namespace SymbolicAlgebra

namespace Expr

variable {α β : Type} {V : Expr α → β → Prop} {es : List (Expr α)} {xs : List β}

theorem numbers_eq_nil_iff : es.filterMap constant? = [] ↔ ∀ e ∈ es, e.isConst = false := by
  simp [List.filterMap_eq_nil_iff, isConst]

theorem numbers_filter (es : List (Expr α)) :
    (es.filter isConst).filterMap constant? = es.filterMap constant? := by
  rw [List.filterMap_filter]
  congr 1
  funext e
  cases e <;> rfl

/-- Numbers that come to the values `xs` are these values, as `g` makes numbers of them. -/
theorem numbers_eq_map {g : β → α} (hV : ∀ {c x}, V (const c) x → c = g x)
    (h : List.Forall₂ V es xs) (hconst : ∀ e ∈ es, e.isConst = true) :
    es.filterMap constant? = xs.map g := by
  induction h with
  | nil => rfl
  | cons hx _ ih =>
    obtain ⟨he, hes⟩ := List.forall_mem_cons.mp hconst
    obtain ⟨c, rfl⟩ := isConst_iff_exists.mp he
    rw [List.map_cons, ← ih hes, ← hV hx]
    rfl

/-- **The values of others and numbers**, when the expressions are parted. -/
theorem forall₂_parted (h : List.Forall₂ V es xs) : ∃ rs cs,
    List.Forall₂ V (es.filter fun e => !e.isConst) rs ∧
      List.Forall₂ V (es.filter isConst) cs ∧ (rs ++ cs).Perm xs := by
  have hparted : (es.filter (fun e => !e.isConst) ++ es.filter isConst).Perm es :=
    List.perm_append_comm.trans (List.filter_append_perm isConst es)
  obtain ⟨ys, hys, hperm⟩ := List.perm_comp_forall₂ hparted h
  have htake := List.forall₂_take_append _ _ _ hys.flip
  have hdrop := List.forall₂_drop_append _ _ _ hys.flip
  exact ⟨_, _, htake.flip, hdrop.flip, by rwa [List.take_append_drop]⟩

end Expr

namespace Simplify

variable {α : Type} [Scalar α]

/-- **The four ways of folding**: there are no numbers, or they are folded and there is nothing
else, or they are folded next to the rest, or they are left as they are. -/
theorem foldConstants_cases (f : Nary) (build : List (Expr α) → Expr α) (as : List (Expr α)) :
    ((∀ a ∈ as, a.isConst = false) ∧
      foldConstants f build as = build (as.filter fun a => !a.isConst)) ∨
    (∃ a ∈ as, a.isConst = true) ∧
      ((∀ a ∈ as, a.isConst = true) ∧
        foldConstants f build as = .const (f.apply (as.filterMap Expr.constant?)) ∨
      (∃ a ∈ as, a.isConst = false) ∧ foldConstants f build as =
        build ((as.filter fun a => !a.isConst) ++
          [.const (f.apply (as.filterMap Expr.constant?))]) ∨
      Scalar.isFinite (f.apply (as.filterMap Expr.constant?)) = false ∧
        foldConstants f build as =
          build ((as.filter fun a => !a.isConst) ++ as.filter Expr.isConst)) := by
  have hrest : (as.filter fun a => !a.isConst).isEmpty = true ↔ ∀ a ∈ as, a.isConst = true := by
    simp [List.filter_eq_nil_iff]
  unfold foldConstants
  simp only [Expr.numbers_filter]
  split
  · next hnil => exact .inl ⟨Expr.numbers_eq_nil_iff.mp hnil, rfl⟩
  · next hne =>
    refine .inr ⟨by simpa using Expr.numbers_eq_nil_iff.not.mp hne, ?_⟩
    unfold finite?
    by_cases hfinite : Scalar.isFinite (f.apply (as.filterMap Expr.constant?)) = true
    · rw [if_pos hfinite]
      by_cases hall : ∀ a ∈ as, a.isConst = true
      · exact .inl ⟨hall, if_pos (hrest.mpr hall)⟩
      · exact .inr (.inl ⟨by simpa using hall, if_neg (hrest.not.mpr hall)⟩)
    · rw [if_neg hfinite]
      exact .inr (.inr ⟨Bool.not_eq_true _ ▸ hfinite, rfl⟩)

end Simplify

end SymbolicAlgebra
