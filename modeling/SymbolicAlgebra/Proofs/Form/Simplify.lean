import SymbolicAlgebra.Proofs.Form.Node
import SymbolicAlgebra.Proofs.Form.Product
import SymbolicAlgebra.Proofs.Form.Sum
import SymbolicAlgebra.Simplify.Solve

/-! # Simplification keeps what lasts

By induction on the depth, the solvers keep every lasting property (`keeps_solve`). A solver only
gives up on sums and products of at least two arguments, so what is made of an unsolved task has
the property too, and with it all of simplification. -/

namespace SymbolicAlgebra

variable {α : Type} [Scalar α] [OrderedScalar α] {P : Expr α → Prop} (hP : Lasting P)

/-- The expressions of a task have the property. -/
def Task.Kept (P : Expr α → Prop) : Task α → Prop
  | .step e => P e
  | .sum ts => ∀ t ∈ ts, P t
  | .product fs => ∀ f ∈ fs, P f

include hP

namespace Simplify

/-! ### Solvers of bounded depth -/

/-- **The rules keep a property** if the solver of their subtasks does. -/
theorem keeps_perform {solve : Solver α} (hs : Keeps P solve) : Keeps P (perform solve) where
  step := stepNode_keeps hP hs
  sum := addTerms_keeps hP hs
  sum_products := addTerms_products hP hs
  product := multiplyFactors_keeps hP hs
  scaled := multiplyFactors_scaled hP hs

/-- **The solvers of all depths keep a property.** -/
theorem keeps_solve : ∀ depth : Nat, Keeps P (solve depth)
  | 0 =>
    { step := fun _ h => nomatch h
      sum := fun _ h => nomatch h
      sum_products := fun _ _ h => nomatch h
      product := fun _ h => nomatch h
      scaled := fun _ h => nomatch h }
  | depth + 1 => keeps_perform hP (keeps_solve depth)

theorem solve_kept {depth : Nat} {task : Task α} {r : Expr α} (htask : task.Kept P)
    (h : solve depth task = some r) : P r := by
  cases task with
  | step e => exact (keeps_solve hP depth).step_kept htask h
  | sum ts => exact (keeps_solve hP depth).sum htask h
  | product fs => exact (keeps_solve hP depth).product htask h

/-! ### Tasks -/

/-- A task that a solver gives up on is no sum or product of fewer than two arguments. -/
theorem toExpr_kept {depth : Nat} {task : Task α} (htask : task.Kept P)
    (h : solve (depth + 1) task = none) : P task.toExpr := by
  match task with
  | .step e => exact htask
  | .sum [] => simp [solve, perform, addTerms] at h
  | .sum [t] => simp [solve, perform, addTerms] at h
  | .sum (t :: u :: ts) => exact hP.sum (Nat.le_add_left 2 ts.length) htask
  | .product [] => simp [solve, perform, multiplyFactors] at h
  | .product [f] => simp [solve, perform, multiplyFactors] at h
  | .product (f :: g :: fs) => exact hP.productOf (Nat.le_add_left 2 fs.length) htask

/-- **What a task comes to** has the property of its expressions. -/
theorem run_kept {task : Task α} (htask : task.Kept P) : P (run task) := by
  obtain ⟨depth, hdepth⟩ := fuelFor_eq_succ task
  unfold run
  rw [hdepth]
  rcases hr : solve (depth + 1) task with _ | r
  · refine hP.sum (Nat.le_refl 2) (List.forall_mem_cons.mpr ⟨toExpr_kept hP htask hr, ?_⟩)
    exact List.forall_mem_singleton.mpr (hP.const _)
  · exact solve_kept hP htask hr

end Simplify

/-! ### Simplification -/

namespace Lasting

theorem buildSum {ts : List (Expr α)} (h : ∀ t ∈ ts, P t) : P (Expr.buildSum ts) :=
  Simplify.run_kept hP h

theorem buildProduct {fs : List (Expr α)} (h : ∀ f ∈ fs, P f) : P (Expr.buildProduct fs) :=
  Simplify.run_kept hP h

theorem simplifyStep {e : Expr α} (h : P e) : P e.simplifyStep :=
  Simplify.run_kept hP h

theorem settle : ∀ (fuel : Nat) {e : Expr α}, P e → P (e.settle fuel)
  | 0, _, h => h
  | fuel + 1, e, h => by
    have hnext := hP.simplifyStep h
    simp only [Expr.settle]
    split_ifs
    · exact hP.simplifyStep hnext
    · exact settle fuel hnext

/-- **Simplification keeps what lasts.** -/
theorem simplify {e : Expr α} (h : P e) : P e.simplify := hP.settle _ (hP.simplifyStep h)

end Lasting

end SymbolicAlgebra
