import SymbolicAlgebra.Proofs.Collected.Sum
import SymbolicAlgebra.Proofs.Congruence.Simplify

/-! # Coefficients of products

A coefficient times an expression depends on the constants and the other factors that the expression
is flattened to. Twice an expression and the sum of two like terms have the same factors, and their
coefficients are the same numbers. -/

namespace SymbolicAlgebra

open SymbolicAlgebra.Expr (Same)

/-- Numbers of which the sum of two equal ones is twice the number, and is zero for zero only. The
opposite of a negative one is neither negative nor zero. -/
class DoublingScalar (α : Type) [Scalar α] : Prop extends StandardScalar α where
  two_ne_zero : Scalar.eq (Scalar.two : α) Scalar.zero = false
  two_ne_one : Scalar.eq (Scalar.two : α) Scalar.one = false
  one_add_one : Scalar.Same (Scalar.add Scalar.one Scalar.one) (Scalar.two : α)
  one_mul (x : α) : Scalar.Same (Scalar.mul Scalar.one x) x
  two_mul (x : α) : Scalar.Same (Scalar.mul Scalar.two x) (Scalar.add x x)
  negZero_add (x : α) : Scalar.Same (Scalar.add Scalar.negZero x) x
  add_self_ne_zero {x : α} : Scalar.eq x Scalar.zero = false →
    Scalar.eq (Scalar.add x x) Scalar.zero = false
  pow_one (x : α) : Scalar.Same (Scalar.pow x Scalar.one) x
  negOne_ne_zero : Scalar.eq (Scalar.negOne : α) Scalar.zero = false
  negOne_ne_one : Scalar.eq (Scalar.negOne : α) Scalar.one = false
  one_not_negative : Scalar.lt (Scalar.one : α) Scalar.zero = false
  neg_of_negative {x : α} : Scalar.lt x Scalar.zero = true →
    Scalar.lt (Scalar.mul Scalar.negOne x) Scalar.zero = false ∧
      Scalar.eq (Scalar.mul Scalar.negOne x) Scalar.zero = false

variable {α : Type} [Scalar α]

/-- One times two times a number is the sum of the number with itself. -/
theorem Scalar.two_coefficient [DoublingScalar α] (c : α) :
    Scalar.Same (Scalar.mul (Scalar.mul Scalar.one Scalar.two) c) (Scalar.add c c) :=
  (CongruentScalar.mul (DoublingScalar.one_mul Scalar.two) (.refl c)).trans
    (DoublingScalar.two_mul c)

namespace Expr

theorem isConstant_of_not_const {e : Expr α} (he : e.isConst = false) (x : α) :
    e.isConstant x = false := by
  cases e with
  | const _ => cases he
  | _ => rfl

/-- A constant may come first in ascending order. -/
theorem const_mayPrecede (k : α) {e : Expr α} (he : e.isConst = false) :
    mayPrecede .product (const k) e = true := by
  cases e with
  | const x => cases he
  | var c => rfl
  | unary f a =>
    cases f with
    | bracket kind => cases kind <;> rfl
    | trig kind => cases kind <;> rfl
    | sign => rfl
  | binary f a b => cases f <;> rfl
  | nary f as => cases f <;> rfl

/-- A constant may not come later in ascending order. -/
theorem not_mayPrecede_const (k : α) {e : Expr α} (he : e.isConst = false) :
    mayPrecede .product e (const k) = false := by
  cases e with
  | const x => cases he
  | var c => rfl
  | unary f a =>
    cases f with
    | bracket kind => cases kind <;> rfl
    | trig kind => cases kind <;> rfl
    | sign => rfl
  | binary f a b => cases f <;> rfl
  | nary f as => cases f <;> rfl

theorem ascending_const (k : α) {e : Expr α} (he : e.isConst = false) :
    ascending [const k, e] = [const k, e] :=
  StableSort.sort_eq_self (List.pairwise_pair.mpr (const_mayPrecede k he))

def isFraction : Expr α → Bool
  | fraction _ _ => true
  | _ => false

omit [Scalar α] in
theorem isFraction_eq_false {e : Expr α} (h : ¬∃ a b, e = fraction a b) : e.isFraction = false := by
  unfold isFraction
  split
  · exact absurd ⟨_, _, rfl⟩ h
  · rfl

omit [Scalar α] in
theorem isFraction_of_not_compound {e : Expr α} (h : e.isCompound = false) :
    e.isFraction = false := by
  refine isFraction_eq_false ?_
  rintro ⟨a, b, rfl⟩
  cases h

theorem Same.isFraction_eq {a b : Expr α} (h : Same a b) : a.isFraction = b.isFraction := by
  cases h.node with
  | binary f _ _ => cases f <;> rfl
  | nary f _ => cases f <;> rfl
  | _ => rfl

/-- An expression other than a number, a sum or a fraction, of which twice is the same whether it is
added to itself or multiplied: it has no leading constant of which twice is zero or one, which would
make the product vanish or leave its factors as they are. -/
structure Doublable (e : Expr α) : Prop where
  not_const : e.isConst = false
  not_sum : e.isSum = false
  not_fraction : e.isFraction = false
  ne_zero : Scalar.eq (Scalar.add (Simplify.splitCoefficient e).1
    (Simplify.splitCoefficient e).1) Scalar.zero = false
  ne_one : Scalar.eq (Scalar.add (Simplify.splitCoefficient e).1
    (Simplify.splitCoefficient e).1) Scalar.one = false

end Expr

namespace Simplify

/-! ### A coefficient and an expression -/

section Coefficient

variable {solve : Solver α} {k : α} {e : Expr α}

theorem distribute?_coefficient (hsum : e.isSum = false) : distribute? [.const k, e] = none := by
  unfold distribute?
  split
  · next heq =>
    obtain ⟨-, heq⟩ := List.cons.inj heq
    rw [(List.cons.inj heq).1] at hsum
    cases hsum
  · rfl

/-- **A coefficient times an expression** that is neither a number nor a sum is collected. -/
theorem multiplyFactors_coefficient (hzero : Scalar.eq k Scalar.zero = false)
    (hone : Scalar.eq k Scalar.one = false) (hconst : e.isConst = false) (hsum : e.isSum = false) :
    multiplyFactors solve [.const k, e] = multiplyPowers solve [.const k, e] := by
  have hnumber := Expr.isConstant_of_not_const hconst
  have hk (x : α) : (Expr.const k).isConstant x = Scalar.eq k x := rfl
  have hany : [.const k, e].any Expr.isZero = false := by
    simp [Expr.isZero, hnumber, hk, hzero]
  have hfilter : ([.const k, e].filter fun f => !f.isOne) = [.const k, e] := by
    simp [Expr.isOne, hnumber, hk, hone]
  unfold multiplyFactors
  simp only [hany, hfilter, Bool.false_eq_true, if_false]
  cases e with
  | const _ => cases hconst
  | _ => simp only [Expr.ascending_const k hconst, distribute?_coefficient hsum]

theorem expandFractions_coefficient (he : e.isFraction = false) :
    expandFractions solve [.const k, e] = some [.const k, e] := by
  have hk (a b : Expr α) : Expr.const k ≠ .fraction a b := nofun
  have hfraction (a b : Expr α) : e ≠ .fraction a b := by
    rintro rfl
    cases he
  rw [expandFractions.eq_3 _ _ _ hk, expandFractions.eq_3 _ _ _ hfraction]
  rfl

end Coefficient

/-! ### Twice an expression -/

variable [DoublingScalar α]

theorem foldl_mul_same {x y : α} (h : Scalar.Same x y) (zs : List α) :
    Scalar.Same (zs.foldl Scalar.mul x) (zs.foldl Scalar.mul y) :=
  List.rel_foldl (P := Scalar.Same) (R := Scalar.Same)
    (fun _ _ hx _ _ hy => CongruentScalar.mul hx hy) h
    (List.forall₂_same.mpr fun z _ => .refl z)

/-- **Twice an expression and the sum of two like terms** are flattened to the same. -/
theorem flat_doubled (e : Expr α) :
    let c := (splitCoefficient e).1
    let flat := factorsOfList [.const (Scalar.add c c), .product (splitCoefficient e).2]
    let flat' := factorsOfList [.const Scalar.two, e]
    nonConstants flat = nonConstants flat' ∧
      Scalar.Same (Scalar.product (constantsOf flat)) (Scalar.product (constantsOf flat')) := by
  have hone : Scalar.Same (Scalar.mul Scalar.one (Scalar.add Scalar.one Scalar.one))
      (Scalar.mul Scalar.one (Scalar.two : α)) :=
    CongruentScalar.mul (.refl _) DoublingScalar.one_add_one
  have hdouble (c : α) : Scalar.Same (Scalar.mul Scalar.one (Scalar.add c c))
      (Scalar.mul (Scalar.mul Scalar.one Scalar.two) c) :=
    (DoublingScalar.one_mul _).trans (Scalar.two_coefficient c).symm
  unfold splitCoefficient
  split
  · next c fs =>
    simp only [factorsOfList, factorsOf, List.append_nil, List.singleton_append]
    exact ⟨rfl, foldl_mul_same (hdouble c) _⟩
  · simp only [factorsOfList, factorsOf, List.append_nil, List.singleton_append]
    exact ⟨rfl, foldl_mul_same hone _⟩
  · simp only [factorsOfList, factorsOf, List.append_nil, List.singleton_append]
    exact ⟨rfl, foldl_mul_same hone _⟩

/-- **Two like terms** come to the same product as twice the term. -/
theorem multiplyFactors_doubled {solve : Solver α} (hs : solve.Congruent) {e : Expr α}
    (he : e.Doublable) :
    Option.Rel Same
      (multiplyFactors solve [.const (Scalar.add (splitCoefficient e).1 (splitCoefficient e).1),
        .product (splitCoefficient e).2])
      (multiplyFactors solve [.const Scalar.two, e]) := by
  obtain ⟨hothers, htotal⟩ := flat_doubled e
  rw [multiplyFactors_coefficient he.ne_zero he.ne_one rfl rfl,
    multiplyFactors_coefficient DoublingScalar.two_ne_zero DoublingScalar.two_ne_one he.not_const
      he.not_sum]
  refine multiplyPowers_flat hs (expandFractions_coefficient rfl)
    (expandFractions_coefficient he.not_fraction) ?_ (coefficient_of_total htotal)
  rw [hothers]
  exact List.forall₂_same.mpr fun _ _ => .refl _

end Simplify

end SymbolicAlgebra
