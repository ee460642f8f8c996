import Mathlib.Logic.Function.Iterate
import SymbolicAlgebra.Proofs.Congruence.Node
import SymbolicAlgebra.Proofs.Congruence.Product
import SymbolicAlgebra.Proofs.Double.Congruence
import SymbolicAlgebra.Simplify.Solve

/-! # Simplification of equal expressions

By induction on the depth, the solvers are congruent (`solve_congruent`), and so is a step of
simplification. Two equal results in a row are therefore a fixed point for good: every further step
and all of simplification leave the result as it is, up to structural equality. -/

namespace SymbolicAlgebra

open SymbolicAlgebra.Expr (Same)

variable {α : Type} [Scalar α]

namespace Simplify

theorem size_lt_size_unsolved (e : Expr α) : e.size < (unsolved (.step e)).size := by
  have hsize : (unsolved (.step e)).size =
      Expr.sizeList (Expr.descending [e, .const Scalar.zero]) + 1 := rfl
  rw [hsize, Expr.descending, StableSort.sort, List.foldr_cons, List.foldr_cons, List.foldr_nil,
    StableSort.insert, StableSort.insert]
  split_ifs <;> simp only [StableSort.insert, Expr.sizeList] <;> omega

variable [CongruentScalar α]

/-! ### Tasks -/

theorem perform_congruent {solve : Solver α} (hs : solve.Congruent) :
    Solver.Congruent (perform solve)
  | _, _, .step h => stepNode_congruent hs h
  | _, _, .sum h => addTerms_congruent hs h
  | _, _, .product h => multiplyFactors_congruent hs h

/-- **The solvers of all depths are congruent.** -/
theorem solve_congruent : ∀ depth : Nat, (solve depth : Solver α).Congruent
  | 0, _, _, _ => .none
  | depth + 1, _, _, h => perform_congruent (solve_congruent depth) h

/-- Tasks of one size that come to the same at any depth, and else are about the same. -/
theorem run_same_of_solve {t u : Task α} (hsize : t.size = u.size) (hexpr : Same t.toExpr u.toExpr)
    (hsolve : ∀ depth : Nat, Option.Rel Same (solve depth t) (solve depth u)) :
    Same (run t) (run u) := by
  have hfuel : fuelFor t = fuelFor u := by rw [fuelFor, fuelFor, hsize]
  have hresults := hsolve (fuelFor t)
  rw [run, run, ← hfuel]
  generalize solve (fuelFor t) t = x at hresults ⊢
  generalize solve (fuelFor t) u = y at hresults ⊢
  cases hresults with
  | some hr => exact hr
  | none => exact .sumOf (.cons hexpr (.cons (.refl _) .nil))

/-- **Equal tasks come to equal expressions.** -/
theorem run_same {t u : Task α} (h : Task.Same t u) : Same (run t) (run u) :=
  run_same_of_solve h.size_eq h.toExpr fun depth => solve_congruent depth h

end Simplify

variable [CongruentScalar α]

namespace Expr

/-! ### Steps -/

namespace Same

variable {a b : Expr α} (h : Same a b)
include h

theorem simplifyStep : Same a.simplifyStep b.simplifyStep := Simplify.run_same (.step h)

theorem settle (fuel : Nat) : Same (a.settle fuel) (b.settle fuel) := by
  induction fuel generalizing a b with
  | zero => exact h
  | succ fuel ih =>
    have hnext := h.simplifyStep
    simp only [Expr.settle, ← hnext.beq_eq h]
    split_ifs
    · exact hnext.simplifyStep
    · exact ih hnext

theorem simplify : Same a.simplify b.simplify := h.simplifyStep.settle _

end Same

/-! ### Fixed points -/

omit [CongruentScalar α] in
/-- A fixed point is one because its step has really been taken: what is made of an expression that
the solver gives up on is larger than the expression. -/
theorem solved_of_fixed {e : Expr α} (h : Same e.simplifyStep e) :
    ∃ r, Simplify.solve (Simplify.fuelFor (.step e)) (.step e) = some r ∧ Same r e := by
  rw [simplifyStep, Simplify.run] at h
  generalize Simplify.solve (Simplify.fuelFor (.step e)) (.step e) = x at h ⊢
  cases x with
  | some r => exact ⟨r, rfl, h⟩
  | none => exact absurd h.size_eq (Nat.ne_of_gt (Simplify.size_lt_size_unsolved e))

theorem settle_of_fixed {e : Expr α} (h : Same e.simplifyStep e) :
    ∀ fuel : Nat, Same (e.settle fuel) e
  | 0 => .refl e
  | fuel + 1 => by
    simp only [settle]
    rw [if_pos (show (e.simplifyStep == e) = true from h)]
    exact h.simplifyStep.trans h

theorem simplify_of_fixed {e : Expr α} (h : Same e.simplifyStep e) : Same e.simplify e :=
  (settle_of_fixed h.simplifyStep _).trans h

/-! ### The loop -/

/-- The loop of simplification stops before the passes run out: two results in a row are equal. -/
def Settles (e : Expr α) : Prop :=
  ∃ pass, 1 ≤ pass ∧ pass < Simplify.maxPasses ∧
    (simplifyStep^[pass + 1] e == simplifyStep^[pass] e) = true

omit [CongruentScalar α] in
/-- The loop stops one step after two equal results, or when the fuel is used up. -/
theorem settle_eq_iterate (fuel : Nat) (e : Expr α) :
    (∃ pass < fuel, (simplifyStep^[pass + 1] e == simplifyStep^[pass] e) = true ∧
      e.settle fuel = simplifyStep^[pass + 2] e) ∨
    ((∀ pass < fuel, ¬(simplifyStep^[pass + 1] e == simplifyStep^[pass] e) = true) ∧
      e.settle fuel = simplifyStep^[fuel] e) := by
  induction fuel generalizing e with
  | zero => exact .inr ⟨fun pass hpass => absurd hpass (Nat.not_lt_zero pass), rfl⟩
  | succ fuel ih =>
    simp only [settle]
    split_ifs with heq
    · exact .inl ⟨0, fuel.succ_pos, heq, rfl⟩
    · rcases ih e.simplifyStep with ⟨pass, hpass, h, hsettle⟩ | ⟨h, hsettle⟩
      · exact .inl ⟨pass + 1, Nat.succ_lt_succ hpass, h, hsettle⟩
      · refine .inr ⟨fun pass hpass => ?_, hsettle⟩
        cases pass with
        | zero => exact heq
        | succ pass => exact h pass (Nat.lt_of_succ_lt_succ hpass)

/-- **Simplification that settles ends at a fixed point.** -/
theorem Settles.fixed {e : Expr α} (h : e.Settles) : Same e.simplify.simplifyStep e.simplify := by
  obtain ⟨_ | k, hpos, hk, heq⟩ := h
  · cases hpos
  · rcases settle_eq_iterate (Simplify.maxPasses - 1) e.simplifyStep with
      ⟨pass, -, hpass, hsettle⟩ | ⟨hnone, -⟩
    · have hnext : Same (simplifyStep^[pass + 1] e.simplifyStep)
          (simplifyStep^[pass] e.simplifyStep) := hpass
      have hlast := hnext.simplifyStep.simplifyStep
      have hiterate (n : Nat) : (simplifyStep^[n] e.simplifyStep).simplifyStep =
          simplifyStep^[n + 1] e.simplifyStep :=
        (Function.iterate_succ_apply' simplifyStep n _).symm
      simp only [hiterate] at hlast
      rw [simplify, hsettle, hiterate]
      exact hlast
    · exact absurd heq (hnone k (Nat.lt_sub_of_add_lt hk))

/-- A loop that settles is at its end for good. -/
theorem Settles.eventually {e : Expr α} (h : e.Settles) :
    ∃ last, ∀ pass, last ≤ pass → Same (simplifyStep^[pass] e) e.simplify := by
  obtain ⟨last, hlast⟩ : ∃ last, e.simplify = simplifyStep^[last] e := by
    rcases settle_eq_iterate (Simplify.maxPasses - 1) e.simplifyStep with
      ⟨pass, -, -, hsettle⟩ | ⟨-, hsettle⟩
    · exact ⟨pass + 2 + 1, hsettle⟩
    · exact ⟨Simplify.maxPasses - 1 + 1, hsettle⟩
  refine ⟨last, fun pass hle => ?_⟩
  induction hle with
  | refl => exact hlast ▸ .refl _
  | step _ ih =>
    rw [Function.iterate_succ_apply']
    exact ih.simplifyStep.trans h.fixed

/-- **Simplifications that meet on their ways** come to the same end. -/
theorem Settles.simplify_same {a b : Expr α} (ha : a.Settles) (hb : b.Settles) {i j : Nat}
    (h : Same (simplifyStep^[i] a) (simplifyStep^[j] b)) : Same a.simplify b.simplify := by
  obtain ⟨m, hm⟩ := ha.eventually
  obtain ⟨n, hn⟩ := hb.eventually
  have hmeet (k : Nat) : Same (simplifyStep^[k + i] a) (simplifyStep^[k + j] b) := by
    induction k with
    | zero => rwa [Nat.zero_add, Nat.zero_add]
    | succ k ih =>
      rw [Nat.succ_add, Nat.succ_add, Function.iterate_succ_apply', Function.iterate_succ_apply']
      exact ih.simplifyStep
  exact (hm (m + n + i) (by omega)).symm.trans ((hmeet (m + n)).trans (hn (m + n + j) (by omega)))

/-- **Simplification respects structural equality.** A step takes equal expressions to equal ones,
and so does all of simplification; at any depth to which subtasks are followed, a step at one of the
two expressions is given up exactly if the step at the other is. If the loop of simplification stops
because two results in a row are equal, then a further step, which is really taken, and further
simplification both leave the result as it is. -/
theorem simplification_respects_equality :
    (∀ a b : Expr α, (a == b) = true →
      (a.simplifyStep == b.simplifyStep) = true ∧ (a.simplify == b.simplify) = true ∧
        ∀ depth : Nat, Option.Rel (fun r r' : Expr α => (r == r') = true)
          (Simplify.solve depth (.step a)) (Simplify.solve depth (.step b))) ∧
    ∀ e : Expr α, e.Settles →
      (e.simplify.simplifyStep == e.simplify) = true ∧ (e.simplify.simplify == e.simplify) = true ∧
        (Simplify.solve (Simplify.fuelFor (.step e.simplify)) (.step e.simplify)).isSome := by
  refine ⟨fun a b h => ⟨Same.simplifyStep h, Same.simplify h, fun depth => ?_⟩, fun e he => ?_⟩
  · exact Simplify.solve_congruent depth (.step h)
  · obtain ⟨r, hr, -⟩ := solved_of_fixed he.fixed
    exact ⟨he.fixed, simplify_of_fixed he.fixed, by rw [hr, Option.isSome_some]⟩

/-- The cotangent of zero over zero, and zero: a step drops the last zero, whatever its sign, and
leaves the quotient as it is. -/
theorem simplification_respects_equality_zeros :
    let zero : Expr Double.Platform.sparse.Number := .const (0 : Float)
    let negZero : Expr Double.Platform.sparse.Number := .const (-0 : Float)
    let a := sum [fraction (trig .cot zero) zero, zero]
    let b := sum [fraction (trig .cot negZero) negZero, negZero]
    (a.simplifyStep == b.simplifyStep) = true ∧ (a.simplify == b.simplify) = true ∧ a.Settles ∧
      (a.simplify.simplifyStep == a.simplify) = true ∧
      (a.simplify.simplify == a.simplify) = true := by
  intro zero negZero a b
  have hcongruent := Double.Platform.sparse_congruent.congruentScalar
  obtain ⟨hequal, hfixed⟩ :=
    simplification_respects_equality (α := Double.Platform.sparse.Number)
  have hsettles : a.Settles := ⟨1, by decide, by decide, by decide +kernel⟩
  obtain ⟨hstep, hsimplify, -⟩ := hequal a b (by decide +kernel)
  obtain ⟨hfixed, hagain, -⟩ := hfixed a hsettles
  exact ⟨hstep, hsimplify, hsettles, hfixed, hagain⟩

end Expr

end SymbolicAlgebra
