import SymbolicAlgebra.Proofs.Double.Congruence
import SymbolicAlgebra.Proofs.Real.Node
import SymbolicAlgebra.Reader.Parse

/-! # Simplification keeps values in the real numbers

By induction on the depth, the solvers keep the values of tasks in the real numbers
(`keepsReal_solve`). So a rooted expression that has a value under some bindings still has it after
simplification: what is defined stays defined (`simplification_keeps_real_value`).

Rounded numbers and other powers are another matter (`simplification_loses_values`). The square root
of a product becomes the product of the square roots, which is not a number where both factors are
negative, and any base that is not steady may become a product. A product of a large number and a
small difference becomes the difference of two infinities. -/

namespace SymbolicAlgebra

variable [RealScalar] {b : Bindings EReal}

namespace Simplify

/-- **The rules keep values in the real numbers** if the solver of their subtasks does. -/
theorem keepsReal_perform {solve : Solver EReal} (hs : KeepsReal b solve)
    (hconstants : KeepsConstants (perform solve)) : KeepsReal b (perform solve) where
  constants := hconstants
  steady he h := stepNode_steady he h
  step hz h := stepNode_real hs hz h
  sum hts h := addTerms_reads (reading_real b) hs.sound hts h
  product hfs h := multiplyFactors_reads (reading_real b) hs.sound hfs h

/-- **The solvers of all depths keep values in the real numbers.** -/
theorem keepsReal_solve : ∀ depth : Nat, KeepsReal b (solve depth)
  | 0 =>
    { constants := constants_solve 0
      steady := fun _ h => nomatch h
      step := fun _ h => nomatch h
      sum := fun _ h => nomatch h
      product := fun _ h => nomatch h }
  | depth + 1 => keepsReal_perform (keepsReal_solve depth) (constants_solve (depth + 1))

theorem run_step_real {e : Expr EReal} {x : ℝ} (he : RealValue b e x) :
    RealValue b (run (.step e)) x := by
  have hV := reading_real b
  unfold run
  rcases hr : solve (fuelFor (.step e)) (.step e) with _ | r
  · have hsum := hV.sumOf (SumReads.cons he (SumReads.singleton_iff.mpr hV.zero))
    rwa [add_zero] at hsum
  · exact (keepsReal_solve _).step he hr

end Simplify

theorem simplifyStep_real {e : Expr EReal} {x : ℝ} (he : RealValue b e x) :
    RealValue b e.simplifyStep x := Simplify.run_step_real he

theorem settle_real : ∀ (fuel : Nat) {e : Expr EReal} {x : ℝ}, RealValue b e x →
    RealValue b (e.settle fuel) x
  | 0, _, _, h => h
  | fuel + 1, e, x, h => by
    have hnext := simplifyStep_real h
    simp only [Expr.settle]
    split_ifs
    · exact simplifyStep_real hnext
    · exact settle_real fuel hnext

/-- **Simplification keeps values in the real numbers.** Let all powers of an expression have whole
exponents, or bases that are constants, variables or functions that stay what they are. If the
expression has a value in the real numbers under some bindings, then so does the simplified
expression, and the value is the same: both evaluate to this number. -/
theorem simplification_keeps_real_value (e : Expr EReal) (he : e.Rooted) (b : Bindings EReal)
    (x : ℝ) (hx : e.real? b = some x) :
    e.simplify.real? b = some x ∧ e.eval b = .ok (x : EReal) ∧
      e.simplify.eval b = .ok (x : EReal) := by
  have hvalue : RealValue b e.simplify x := settle_real _ (simplifyStep_real ⟨he, hx⟩)
  exact ⟨hvalue.real?_eq, Expr.eval_of_real? hx, Expr.eval_of_real? hvalue.real?_eq⟩

omit [RealScalar] in
/-- `x ^ y + |y| + log_x (x ^ y)` comes to `14` at `x = 2` and `y = 3`, simplified or not. -/
theorem simplification_keeps_real_value_two_three :
    let _ : RealScalar := extendedReals
    let x : Expr EReal := .var 'x'
    let y : Expr EReal := .var 'y'
    let e : Expr EReal := .sum [.power x y, .bracket .abs y, .log x (.power x y)]
    let b : Bindings EReal := .ofList [('x', (2 : ℝ)), ('y', (3 : ℝ))]
    e.Rooted ∧ e.real? b = some 14 ∧ e.simplify.real? b = some 14 ∧
      e.simplify.eval b = .ok ((14 : ℝ) : EReal) := by
  intro hscalar x y e b
  have hx : RealValue b x 2 := RealValue.var_iff.mpr rfl
  have hy : RealValue b y 3 := RealValue.var_iff.mpr rfl
  have height : realPower? 2 3 = some 8 := by
    rw [realPower?_eq_some_iff]
    exact .inl ⟨by norm_num, by norm_num⟩
  have hpower : RealValue b (.power x y) 8 :=
    RealValue.power_iff.mpr ⟨2, 3, hx, hy, .inl rfl, by norm_num, height⟩
  have habs : RealValue b (.bracket .abs y) 3 :=
    RealValue.unary_iff.mpr ⟨3, hy, congrArg some (abs_of_pos (by norm_num))⟩
  have hlog : RealValue b (.log x (.power x y)) 3 := by
    refine (RealValue.binary_iff (by decide)).mpr ⟨2, 8, hx, hpower, ?_⟩
    have hcube : Real.log 8 = 3 * Real.log 2 := by
      rw [show (8 : ℝ) = 2 ^ (3 : ℕ) by norm_num, Real.log_pow]
      norm_num
    have hne : Real.log 2 ≠ 0 := Real.log_ne_zero_of_pos_of_ne_one (by norm_num) (by norm_num)
    rw [Binary.real?, if_pos (by norm_num), hcube, mul_div_cancel_right₀ _ hne]
  have he : RealValue b e 14 := by
    have hsum := (reading_real b).sum_iff.mpr
      (.cons hpower (.cons habs (SumReads.singleton_iff.mpr hlog)))
    norm_num at hsum
    exact hsum
  obtain ⟨hreal, -, heval⟩ := simplification_keeps_real_value e he.rooted b 14 he.real?_eq
  exact ⟨he.rooted, he.real?_eq, hreal, heval⟩

/-! ### Doubles -/

open Double (Platform)

instance (p : Platform) : Numeral p.Number := inferInstanceAs (Numeral Float)

/-- A platform that also knows squares, powers of one and the logarithm of two. A root of a negative
number is not a number. -/
def unitRoots : Platform :=
  { Platform.sparse with
    pow := fun x y => if x == 1 then 1 else if y == 2 then x * x else Platform.sparse.pow x y
    ln := fun x => if x == 1 then 0 else if x == 2 then 0.6931471805599453 else 0 / 0 }

/-- Whether the text spells an expression that has a number as value, and after simplification
something that is not a number. -/
def losesValue (p : Platform) (text : String) (bindings : List (Char × p.Number)) : Bool :=
  match Expr.parse (α := p.Number) text with
  | .error _ => false
  | .ok (e, _) =>
    match e.eval (.ofList bindings), e.simplify.eval (.ofList bindings) with
    | .ok x, .ok y => !Scalar.isNaN x && Scalar.isNaN y
    | _, _ => false

omit [RealScalar] in
/-- **Simplification loses values of doubles.** Any kind of base that is not steady may come to a
product of negative numbers, and infinities that do not meet before simplification may meet after
it. -/
theorem simplification_loses_values :
    let minus : List (Char × unitRoots.Number) := [('x', (-1 : Float)), ('y', (-1 : Float))]
    losesValue unitRoots "(x*y)^0.5" minus = true ∧
      losesValue unitRoots "(x/y)^0.5" minus = true ∧
      losesValue unitRoots "(x^2)^0.25" minus = true ∧
      losesValue unitRoots "(x*y+x*y-x*y)^0.5" minus = true ∧
      losesValue unitRoots "cos(arccos(x*y))^0.5" minus = true ∧
      losesValue unitRoots "log_2(2^(x*y))^0.5" minus = true ∧
      losesValue unitRoots "x*(y+z)"
        [('x', (1e200 : Float)), ('y', (1e200 : Float)), ('z', (-1e200 : Float))] = true ∧
      losesValue unitRoots "(1/w)*(y+2)" [('w', (0 : Float)), ('y', (-1 : Float))] = true := by
  decide +kernel

end SymbolicAlgebra
