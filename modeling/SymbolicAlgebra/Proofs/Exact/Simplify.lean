import SymbolicAlgebra.Proofs.Exact.Node

/-! # Simplification keeps values

One induction on the depth of the solver puts the rules together: a solver that keeps the values of
tasks still does so with the rules applied on top of it (`exact_perform`), so the solvers of all
depths are exact (`exact_solve`). What is made of a task that a solver gives up on has the value of
the task too. With that, the value of an expression survives a step, all of simplification, and the
building of sums and products. -/

namespace SymbolicAlgebra

variable {ρ : Char → ℚ} [ExactScalar]

namespace Simplify

/-! ### Solvers of bounded depth -/

/-- **The rules keep the values of tasks** if the solver of their subtasks does. -/
theorem exact_perform {solve : Solver ℚ} (hs : Exact ρ solve) : Exact ρ (perform solve) where
  value {task x r} hx h := by
    cases task with
    | step e => exact stepNode_hasValue hs hx h
    | sum ts => exact addTerms_hasValue hs hx h
    | product fs => exact multiplyFactors_hasValue hs hx h
  step_const h := (Option.some.inj h).symm
  mul_consts h := multiplyFactors_consts h
  sum_consts h := addTerms_consts hs h

/-- **The solvers of all depths keep the values of tasks.** -/
theorem exact_solve : ∀ depth : Nat, Exact ρ (solve depth)
  | 0 =>
    { value := fun _ _ _ _ h => nomatch h
      step_const := fun h => nomatch h
      mul_consts := fun h => nomatch h
      sum_consts := fun h => nomatch h }
  | depth + 1 => exact_perform (exact_solve depth)

theorem toExpr_hasValue {task : Task ℚ} {x : ℚ} (h : task.HasValue ρ x) :
    HasValue ρ task.toExpr x := by
  cases task with
  | step e => exact h
  | sum ts => exact hasValue_sumOf h
  | product fs => exact hasValue_productOf h

theorem unsolved_hasValue {task : Task ℚ} {x : ℚ} (h : task.HasValue ρ x) :
    HasValue ρ (unsolved task) x := by
  have hzero : SumsTo ρ [.const Scalar.zero] 0 := by
    rw [ExactScalar.zero_eq]
    exact SumsTo.singleton_iff.mpr (.const ρ 0)
  have hsum := hasValue_sumOf (SumsTo.cons (toExpr_hasValue h) hzero)
  rwa [add_zero] at hsum

/-- **What a task comes to has the value of the task.** -/
theorem run_hasValue (task : Task ℚ) {x : ℚ} (h : task.HasValue ρ x) :
    HasValue ρ (run task) x := by
  unfold run
  rcases hr : solve (fuelFor task) task with _ | r
  · exact unsolved_hasValue h
  · exact (exact_solve _).value task h hr

end Simplify

/-! ### Simplification -/

theorem buildSum_hasValue {ts : List (Expr ℚ)} {x : ℚ} (h : SumsTo ρ ts x) :
    HasValue ρ (Expr.buildSum ts) x := Simplify.run_hasValue (.sum ts) h

theorem buildProduct_hasValue {fs : List (Expr ℚ)} {x : ℚ} (h : MultipliesTo ρ fs x) :
    HasValue ρ (Expr.buildProduct fs) x := Simplify.run_hasValue (.product fs) h

theorem simplifyStep_hasValue {e : Expr ℚ} {x : ℚ} (h : HasValue ρ e x) :
    HasValue ρ e.simplifyStep x := Simplify.run_hasValue (.step e) h

theorem settle_hasValue : ∀ (fuel : Nat) {e : Expr ℚ} {x : ℚ}, HasValue ρ e x →
    HasValue ρ (e.settle fuel) x
  | 0, _, _, h => h
  | fuel + 1, e, x, h => by
    have hnext := simplifyStep_hasValue h
    simp only [Expr.settle]
    split_ifs
    · exact simplifyStep_hasValue hnext
    · exact settle_hasValue fuel hnext

/-- **Simplification keeps the value of rational expressions.** Where an expression is defined, one
step gives a rational expression that is defined and has the same value, and so does all of
simplification; a sum that is built of expressions has the sum of their values, and a product the
product. The depth to which subtasks are followed plays no part: whatever the rules give for a
task, at any depth, has the value of the task. -/
theorem simplification_keeps_value (ρ : Char → ℚ) :
    (∀ e : Expr ℚ, Defined ρ e →
      HasValue ρ e.simplifyStep (e.value ρ) ∧ HasValue ρ e.simplify (e.value ρ)) ∧
    (∀ es : List (Expr ℚ), (∀ e ∈ es, Defined ρ e) →
      HasValue ρ (Expr.buildSum es) (es.map (Expr.value ρ)).sum ∧
      HasValue ρ (Expr.buildProduct es) (es.map (Expr.value ρ)).prod) ∧
    ∀ (depth : Nat) (task : Task ℚ) (x : ℚ) (r : Expr ℚ), task.HasValue ρ x →
      Simplify.solve depth task = some r → HasValue ρ r x := by
  refine ⟨fun e he => ?_, fun es hes => ?_, fun depth task x r hx h => ?_⟩
  · have hstep := simplifyStep_hasValue he.hasValue
    exact ⟨hstep, settle_hasValue _ hstep⟩
  · exact ⟨buildSum_hasValue ⟨hes, rfl⟩, buildProduct_hasValue ⟨hes, rfl⟩⟩
  · exact (Simplify.exact_solve depth).value task hx h

omit [ExactScalar] in
/-- `(x - y) ^ 2 x ^ -2 + y / x` comes to `31` at `x = 1/2` and `y = 3`, simplified or not. -/
theorem simplification_keeps_value_half_three :
    let ρ : Char → ℚ := fun c => if c = 'x' then 1 / 2 else 3
    let e : Expr ℚ := .sum
      [.product
        [.power (.sum [.var 'x', .product [.const (-1), .var 'y']]) (.const (2 : ℤ)),
          .power (.var 'x') (.const (-2 : ℤ))],
        .fraction (.var 'y') (.var 'x')]
    HasValue ρ (@Expr.simplify ℚ rationals.toScalar e) 31 := by
  intro ρ e
  have hx : HasValue ρ (.var 'x') (1 / 2) := ⟨.var _, by simp [ρ]⟩
  have hy : HasValue ρ (.var 'y') 3 := ⟨.var _, by simp [ρ]⟩
  have hdiff := hasValue_sum_iff.mpr (SumsTo.cons hx (SumsTo.singleton_iff.mpr
    (hasValue_product_iff.mpr (.pair (.const _ (-1)) hy))))
  have hsquares := hasValue_product_iff.mpr (MultipliesTo.pair
    (hdiff.power (n := 2) (by norm_num)) (hx.power (n := -2) (by norm_num)))
  have he : HasValue _ e _ := hasValue_sum_iff.mpr
    (SumsTo.cons hsquares (SumsTo.singleton_iff.mpr (hy.fraction hx (by norm_num))))
  have hvalue := ((@simplification_keeps_value rationals _).1 e he.isDefined).2
  rw [he.value_eq] at hvalue
  norm_num at hvalue
  exact hvalue

end SymbolicAlgebra
