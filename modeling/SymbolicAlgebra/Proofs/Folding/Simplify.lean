import SymbolicAlgebra.Proofs.Folding.Node

/-! # Folding agrees with evaluation

A constant folded by the simplifier should have the value that evaluation gives. What a node of
doubles is simplified to, if it is a number, stands here next to its value. The two agree but for four
rules that compute otherwise; each of them has a node where the two part. -/

namespace SymbolicAlgebra

open Double (Platform)

namespace Simplify

variable {α : Type} [Scalar α]

/-- A step that leads to a constant has not been given up. -/
theorem stepNode_of_simplifyStep {e : Expr α} {c : α} (h : e.simplifyStep = .const c) :
    ∃ depth, stepNode (solve depth) e = some (.const c) := by
  obtain ⟨depth, hdepth⟩ := fuelFor_eq_succ (Task.step e)
  refine ⟨depth, ?_⟩
  unfold Expr.simplifyStep run at h
  rw [hdepth] at h
  change (stepNode (solve depth) e).getD _ = .const c at h
  rcases hresult : stepNode (solve depth) e with _ | r
  · rw [hresult] at h
    cases h
  · rw [hresult] at h
    exact congrArg some h

end Simplify

/-- **A folded constant is what evaluation gives**, but for sums of more than two numbers other than
zero, products with a zero, quotients that are not whole and logarithms to bases without a proper
logarithm. -/
theorem folding_agrees_with_evaluation (p : Platform) (hp : p.Documented) (e : Expr p.Number)
    (he : e.ConstantNode) (c : p.Number) (h : e.simplifyStep = .const c)
    (b : Bindings p.Number) : ∃ v, e.eval b = .ok v ∧ e.Folded c v := by
  have := hp.unitalScalar
  obtain ⟨depth, hstep⟩ := Simplify.stepNode_of_simplifyStep h
  exact Simplify.stepNode_folded he hstep b

/-! ### Few numbers -/

namespace Double.Platform

theorem sparse_documented : sparse.Documented where
  pow_zero x s := by
    have hzero : (signedZero s == 0) = true := by cases s <;> rfl
    simp only [sparse, hzero, if_true]
  pow_one x := by
    have hzero : ((1 : Float) == 0) = false := rfl
    have hone : ((1 : Float) == 1) = true := rfl
    simp only [sparse, hzero, hone, if_true]
    rfl
  ln_one := by decide +kernel
  ln_zero s s' := by cases s <;> cases s' <;> decide +kernel

end Double.Platform

/-- Six halves are folded. -/
theorem folding_agrees_with_evaluation_six_halves :
    let e : Expr Platform.sparse.Number := .productOf [.const (6 : Float), .const (0.5 : Float)]
    e.ConstantNode ∧ ∃ c, e.simplifyStep = .const c ∧ ∃ v, e.eval ∅ = .ok v ∧ e.Folded c v := by
  intro e
  have he : e.ConstantNode := .of_arranged .product (by decide +kernel)
  have hfolded : e.simplifyStep.isConst = true := rfl
  obtain ⟨c, hc⟩ := Expr.isConst_iff_exists.mp hfolded
  exact ⟨he, c, hc, folding_agrees_with_evaluation _ Platform.sparse_documented e he c hc ∅⟩

/-- Whether the expression is simplified to a number that is not the one it evaluates to. -/
def Expr.foldsApart {α : Type} [Scalar α] (e : Expr α) : Bool :=
  match e.simplifyStep, e.eval ∅ with
  | .const c, .ok v => !Scalar.same c v
  | _, _ => false

/-- **Folding and evaluation part** at a sum whose small terms only count together, at zero times
infinity, at the logarithm of one to the base one and at a quotient that is not whole. -/
theorem folding_departs_from_evaluation :
    let number (x : Float) : Expr Platform.sparse.Number := .const x
    (Expr.sumOf [number 1e16, number 1, number 1]).foldsApart = true ∧
      (Expr.productOf [number 0, number (1 / 0)]).foldsApart = true ∧
      (Expr.log (number 1) (number 1)).foldsApart = true ∧
      (Expr.fraction (number 0.3) (number 0.1)).foldsApart = true := by
  decide +kernel

end SymbolicAlgebra
