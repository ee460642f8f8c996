import SymbolicAlgebra.Proofs.Congruence.Shape
import SymbolicAlgebra.Simplify.Sum

/-! # Sums of equal terms

Adding up treats lists of equal terms alike (`addTerms_congruent`): equal terms fall into the same
groups of like terms, with coefficients that are the same. -/

namespace SymbolicAlgebra.Simplify

open SymbolicAlgebra.Expr (Same)

variable {α : Type} [Scalar α]

/-! ### Terms and constants -/

mutual

theorem termsOf_same : ∀ {a b : Expr α}, Same a b → List.Forall₂ Same (termsOf a) (termsOf b)
  | .nary f _, _, h => by
    cases h.node with
    | nary _ hs =>
      cases f with
      | sum => exact termsOfList_same hs
      | _ => exact .cons h .nil
  | .const _, _, h | .var _, _, h | .unary _ _, _, h | .binary _ _ _, _, h => by
    cases h.node
    exact .cons h .nil

theorem termsOfList_same : ∀ {as bs : List (Expr α)}, List.Forall₂ Same as bs →
    List.Forall₂ Same (termsOfList as) (termsOfList bs)
  | [], _, .nil => .nil
  | _ :: _, _, .cons h hs => List.rel_append (termsOf_same h) (termsOfList_same hs)

end

theorem nonConstants_same {as bs : List (Expr α)} (h : List.Forall₂ Same as bs) :
    List.Forall₂ Same (nonConstants as) (nonConstants bs) :=
  Expr.filter_same h fun hab => by rw [hab.isConst_eq]

variable [CongruentScalar α]

/-! ### Like terms -/

theorem splitCoefficient_same {a b : Expr α} (h : Same a b) :
    Scalar.Same (splitCoefficient a).1 (splitCoefficient b).1 ∧
      List.Forall₂ Same (splitCoefficient a).2 (splitCoefficient b).2 := by
  cases h.node with
  | nary f hs =>
    match f, hs with
    | .product, .nil => exact ⟨.refl _, .nil⟩
    | .product, .cons hc hs =>
      cases hc.node with
      | const hx => exact ⟨hx, hs⟩
      | _ => exact ⟨.refl _, .cons hc hs⟩
    | .sum, _ => exact ⟨.refl _, .cons h .nil⟩
    | .min, _ => exact ⟨.refl _, .cons h .nil⟩
    | .max, _ => exact ⟨.refl _, .cons h .nil⟩
  | _ => exact ⟨.refl _, .cons h .nil⟩

namespace LikeTerms

/-- Groups of equal terms. -/
structure Same (g g' : LikeTerms α) : Prop where
  coefficient : Scalar.Same g.coefficient g'.coefficient
  factors : List.Forall₂ Expr.Same g.factors g'.factors
  merged : g.merged = g'.merged

theorem add_same {x y : α} (hx : Scalar.Same x y) {as bs : List (Expr α)}
    (h : List.Forall₂ Expr.Same as bs) : ∀ {gs gs' : List (LikeTerms α)},
      List.Forall₂ Same gs gs' → List.Forall₂ Same (add x as gs) (add y bs gs')
  | _, _, .nil => .cons ⟨hx, h, rfl⟩ .nil
  | _, _, .cons hg hgs => by
    rw [add, add, ← Same.beqList_eq hg.factors h]
    split_ifs
    · exact .cons ⟨CongruentScalar.add hg.coefficient hx, hg.factors, rfl⟩ hgs
    · exact .cons hg (add_same hx h hgs)

theorem collect_same {as bs : List (Expr α)} (h : List.Forall₂ Expr.Same as bs) :
    List.Forall₂ Same (collect as) (collect bs) :=
  List.rel_foldl (P := List.Forall₂ Same) (fun _ _ hgs _ _ hab =>
    add_same (splitCoefficient_same hab).1 (splitCoefficient_same hab).2 hgs) .nil h

variable {solve : Solver α} (hs : solve.Congruent)
include hs

omit [CongruentScalar α] in
theorem toTerm_congruent {g g' : LikeTerms α} (hg : Same g g') :
    Option.Rel Expr.Same (g.toTerm solve) (g'.toTerm solve) := by
  have hcoefficient := Expr.Same.of_numbers hg.coefficient
  rw [toTerm, toTerm, ← hg.merged]
  split_ifs
  · exact hs.product_pair hcoefficient (.nary .product hg.factors)
  · exact .some (.nary .product (.cons hcoefficient hg.factors))

omit [CongruentScalar α] in
theorem toTerms_congruent : ∀ {gs gs' : List (LikeTerms α)}, List.Forall₂ Same gs gs' →
    Option.Rel (List.Forall₂ Expr.Same) (toTerms solve gs) (toTerms solve gs')
  | _, _, .nil => .some .nil
  | _, _, .cons hg hgs =>
    (toTerm_congruent hs hg).bind fun _ _ h => (toTerms_congruent hgs).bind fun _ _ h' =>
      .some (.cons h h')

end LikeTerms

/-! ### The rule -/

theorem constantTerm_same {as bs : List (Expr α)} (h : List.Forall₂ Same as bs) :
    List.Forall₂ Same (constantTerm as) (constantTerm bs) := by
  have htotal : Scalar.Same (Scalar.sum (constantsOf as)) (Scalar.sum (constantsOf bs)) :=
    Nary.apply_same .sum (Expr.constants_same h)
  simp only [constantTerm, ← htotal.eq_eq (.refl Scalar.zero)]
  split_ifs
  · exact .nil
  · exact .cons (.of_numbers htotal) .nil

variable {solve : Solver α} (hs : solve.Congruent)
include hs

/-- **Terms that are sorted to the same** have the same sum. -/
theorem addNonzero_sorted {as bs : List (Expr α)}
    (h : List.Forall₂ Same (Expr.ascending as) (Expr.ascending bs)) :
    Option.Rel Same (addNonzero solve as) (addNonzero solve bs) := by
  have hflat := termsOfList_same h
  refine (LikeTerms.toTerms_congruent hs (LikeTerms.collect_same (nonConstants_same hflat))).bind
    fun _ _ hothers => ?_
  refine (hs.steps (List.rel_append (constantTerm_same hflat) hothers)).bind
    fun _ _ hstepped => ?_
  exact .some (Same.sumOf hstepped).downgrade

theorem addTerms_congruent {as bs : List (Expr α)} (h : List.Forall₂ Same as bs) :
    Option.Rel Same (addTerms solve as) (addTerms solve bs) := by
  have hnonzero := Expr.filter_same h (p := fun t => !t.isZero) fun hab => by
    rw [Expr.isZero, hab.isConstant_eq, Expr.isZero]
  match h with
  | .nil => exact .some (.refl _)
  | .cons hc .nil => exact .some hc
  | .cons _ (.cons _ _) =>
    exact Expr.combined_or CongruentScalar.add hnonzero 
      (addNonzero_sorted hs (Expr.arrange_congr .product hnonzero))

end SymbolicAlgebra.Simplify
