import SymbolicAlgebra.Proofs.Congruence.Simplify

/-! # Operands in any order

Adding up and multiplying sort the operands before they look at any of them for long: what is done
before the sorting is to drop zeros and ones, to find a factor that is zero, and to combine two
constants. So a sum or product of the same operands in another order comes to the same
(`operands_in_any_order`), if two numbers may be added and multiplied either way. Doubles may. -/

namespace SymbolicAlgebra

open SymbolicAlgebra.Expr (Same)

/-- Numbers of which two can be added and multiplied either way. -/
class CommutativeScalar (α : Type) [Scalar α] : Prop where
  add_comm (x y : α) : Scalar.Same (Scalar.add x y) (Scalar.add y x)
  mul_comm (x y : α) : Scalar.Same (Scalar.mul x y) (Scalar.mul y x)

/-! ### Doubles -/

namespace Double

open Float.Model (UnpackedFloat Format)
open Float.Model.UnpackedFloat (Sign)

theorem sign_mul_comm (s t : Sign) : s * t = t * s := by
  cases s <;> cases t <;> rfl

theorem unpacked_add_comm (u v : UnpackedFloat) :
    UnpackedFloat.add Format.binary64 u v = UnpackedFloat.add Format.binary64 v u := by
  rcases u with s | _ | s | ⟨s, m, e, hm⟩ <;> rcases v with t | _ | t | ⟨t, n, q, hn⟩
  case infinity.infinity => cases s <;> cases t <;> rfl
  case zero.zero => cases s <;> cases t <;> rfl
  case finite.finite => simp only [UnpackedFloat.add, min_comm e q, Int.add_comm]
  all_goals rfl

theorem unpacked_mul_comm (u v : UnpackedFloat) :
    UnpackedFloat.mul Format.binary64 u v = UnpackedFloat.mul Format.binary64 v u := by
  rcases u with s | _ | s | ⟨s, m, e, hm⟩ <;> rcases v with t | _ | t | ⟨t, n, q, hn⟩
  case finite.finite =>
    rw [UnpackedFloat.mul, UnpackedFloat.mul, sign_mul_comm, Nat.mul_comm, Int.add_comm]
  case infinity.infinity | infinity.finite | finite.infinity =>
    exact congrArg UnpackedFloat.infinity (sign_mul_comm s t)
  case zero.zero | zero.finite | finite.zero =>
    exact congrArg UnpackedFloat.zero (sign_mul_comm s t)
  all_goals rfl

instance (p : Platform) : CommutativeScalar p.Number where
  add_comm x y := by
    have hcomm : Scalar.add x y = Scalar.add y x :=
      congrArg ofParts (unpacked_add_comm (parts x) (parts y))
    exact hcomm ▸ .refl _
  mul_comm x y := by
    have hcomm : Scalar.mul x y = Scalar.mul y x :=
      congrArg ofParts (unpacked_mul_comm (parts x) (parts y))
    exact hcomm ▸ .refl _

end Double

variable {α : Type}

namespace Expr

/-! ### What is read off operands in another order -/

theorem sizeList_perm {as bs : List (Expr α)} (h : as.Perm bs) : sizeList as = sizeList bs := by
  induction h with
  | nil => rfl
  | cons a _ ih => rw [sizeList, sizeList, ih]
  | swap a b as =>
    simp only [sizeList]
    omega
  | trans _ _ ih ih' => exact ih.trans ih'

/-- Orders of one operand are that operand alone. -/
theorem single_or_not {as bs : List (Expr α)} (h : as.Perm bs) :
    (∃ a, as = [a] ∧ bs = [a]) ∨ ((∀ a, as = [a] → False) ∧ ∀ a, bs = [a] → False) := by
  by_cases hsingle : ∃ a, as = [a]
  · obtain ⟨a, rfl⟩ := hsingle
    exact .inl ⟨a, rfl, List.perm_singleton.mp h.symm⟩
  · refine .inr ⟨fun a ha => hsingle ⟨a, ha⟩, ?_⟩
    rintro a rfl
    exact hsingle ⟨a, List.perm_singleton.mp h⟩

/-- Three operands or more are not combined directly. -/
theorem combined_long {op : α → α → α} {e : Expr α} {rest : List (Expr α) → Option (Expr α)}
    {a b c : Expr α} {as : List (Expr α)} :
    (match a :: b :: c :: as with
      | [] => some e
      | [a] => some a
      | [.const x, .const y] => some (.const (op x y))
      | as => rest as) = rest (a :: b :: c :: as) := by
  cases a <;> cases b <;> rfl

/-- What operands in either order amount to if one amounts to itself and two constants are combined
either way. -/
theorem combined_perm [Scalar α] [OrderedScalar α] {op : α → α → α}
    (hop : ∀ x y : α, Scalar.Same (op x y) (op y x)) {e : Expr α}
    {rest : List (Expr α) → Option (Expr α)} : ∀ {as bs : List (Expr α)}, as.Perm bs →
    Option.Rel Same (rest as) (rest bs) →
    Option.Rel Same
      (match as with
        | [] => some e
        | [a] => some a
        | [.const x, .const y] => some (.const (op x y))
        | as => rest as)
      (match bs with
        | [] => some e
        | [b] => some b
        | [.const x, .const y] => some (.const (op x y))
        | bs => rest bs)
  | [], _, h, _ => by
    obtain rfl := h.nil_eq
    exact .some (.refl e)
  | [a], _, h, _ => by
    obtain rfl := List.perm_singleton.mp h.symm
    exact .some (.refl a)
  | [a, b], _, h, hrest => by
    rcases List.perm_pair.mp h.symm with rfl | rfl
    · cases a with
      | const x =>
        cases b with
        | const y => exact .some (.refl _)
        | _ => exact hrest
      | _ => cases b <;> exact hrest
    · cases a with
      | const x =>
        cases b with
        | const y => exact .some (.of_numbers (hop x y))
        | _ => exact hrest
      | _ => cases b <;> exact hrest
  | a :: b :: c :: as, bs, h, hrest => by
    obtain ⟨a', b', c', bs', rfl⟩ : ∃ a' b' c' bs', bs = a' :: b' :: c' :: bs' := by
      match bs, h.length_eq with
      | a' :: b' :: c' :: bs', _ => exact ⟨a', b', c', bs', rfl⟩
    rw [combined_long, combined_long]
    exact hrest

end Expr

variable [Scalar α] [CongruentScalar α] [CommutativeScalar α] {as bs : List (Expr α)}

/-! ### Sums and products -/

namespace Simplify

section Solver

variable {solve : Solver α} (hs : solve.Congruent) (h : as.Perm bs)
include hs h

theorem addTerms_perm : Option.Rel Same (addTerms solve as) (addTerms solve bs) := by
  have hnonzero := h.filter fun t => !t.isZero
  rcases Expr.single_or_not h with ⟨a, rfl, rfl⟩ | ⟨has, hbs⟩
  · exact .some (.refl a)
  · rw [addTerms.eq_2 _ _ has, addTerms.eq_2 _ _ hbs]
    refine Expr.combined_perm CommutativeScalar.add_comm hnonzero ?_
    exact addNonzero_sorted hs (Expr.arrange_perm_same .product hnonzero)

theorem multiplyFactors_perm :
    Option.Rel Same (multiplyFactors solve as) (multiplyFactors solve bs) := by
  have hothers := h.filter fun f => !f.isOne
  rcases Expr.single_or_not h with ⟨a, rfl, rfl⟩ | ⟨has, hbs⟩
  · exact .some (.refl a)
  · rw [multiplyFactors.eq_2 _ _ has, multiplyFactors.eq_2 _ _ hbs, ← h.any_eq]
    split_ifs
    · exact .some (.refl _)
    · refine Expr.combined_perm CommutativeScalar.mul_comm hothers ?_
      exact multiplySorted_congruent hs (Expr.arrange_perm_same .product hothers)

end Solver

/-- A job about operands, in either order, at any depth to which subtasks are followed. -/
theorem solve_perm (h : as.Perm bs) : ∀ depth : Nat,
    Option.Rel Same (solve depth (.sum as)) (solve depth (.sum bs)) ∧
      Option.Rel Same (solve depth (.product as)) (solve depth (.product bs))
  | 0 => ⟨.none, .none⟩
  | depth + 1 =>
    ⟨addTerms_perm (solve_congruent depth) h, multiplyFactors_perm (solve_congruent depth) h⟩

end Simplify

namespace Expr

theorem buildSum_perm (h : as.Perm bs) : Same (buildSum as) (buildSum bs) :=
  Simplify.run_same_of_solve (sizeList_perm h) (.nary .sum (arrange_perm_same .sum h))
    fun depth => (Simplify.solve_perm h depth).1

theorem buildProduct_perm (h : as.Perm bs) : Same (buildProduct as) (buildProduct bs) :=
  Simplify.run_same_of_solve (sizeList_perm h) (.nary .product (arrange_perm_same .product h))
    fun depth => (Simplify.solve_perm h depth).2

/-- **The order of operands never matters.** Two orders of the same expressions are sorted to lists
that are structurally equal one by one, the constructors that sort build structurally equal nodes of
them, and simplified sums and products of them are structurally equal; at any depth to which
subtasks are followed, one of the two is given up exactly if the other is. Of doubles only those
functions that the platform provides are asked to respect equality. -/
theorem operands_in_any_order {p : Double.Platform} [CongruentScalar p.Number]
    {as bs : List (Expr p.Number)} (h : as.Perm bs) :
    List.Forall₂ (fun a b => (a == b) = true) (ascending as) (ascending bs) ∧
      List.Forall₂ (fun a b => (a == b) = true) (descending as) (descending bs) ∧
      (sumOf as == sumOf bs) = true ∧ (productOf as == productOf bs) = true ∧
      (minOf as == minOf bs) = true ∧ (maxOf as == maxOf bs) = true ∧
      (buildSum as == buildSum bs) = true ∧ (buildProduct as == buildProduct bs) = true ∧
      ∀ depth : Nat,
        Option.Rel (fun r r' : Expr p.Number => (r == r') = true)
          (Simplify.solve depth (.sum as)) (Simplify.solve depth (.sum bs)) ∧
        Option.Rel (fun r r' : Expr p.Number => (r == r') = true)
          (Simplify.solve depth (.product as)) (Simplify.solve depth (.product bs)) :=
  ⟨arrange_perm_same .product h, arrange_perm_same .sum h,
    Same.nary .sum (arrange_perm_same .sum h), Same.nary .product (arrange_perm_same .product h),
    Same.nary .min (arrange_perm_same .min h), Same.nary .max (arrange_perm_same .max h),
    buildSum_perm h, buildProduct_perm h, Simplify.solve_perm h⟩

/-- The two zeros to the power of minus one are equal but not identical: which of them stands first
in a sum or product depends on the order in which they are given. -/
theorem operands_in_any_order_zeros :
    let zero : Expr Double.Platform.sparse.Number := recip (const (0 : Float))
    let negZero : Expr Double.Platform.sparse.Number := recip (const (-0 : Float))
    let x : Expr Double.Platform.sparse.Number := var 'x'
    [zero, x, negZero].Perm [negZero, zero, x] ∧
      (sumOf [zero, x, negZero] == sumOf [negZero, zero, x]) = true ∧
      (buildSum [zero, x, negZero] == buildSum [negZero, zero, x]) = true ∧
      (buildProduct [zero, x, negZero] == buildProduct [negZero, zero, x]) = true := by
  intro zero negZero x
  have hcongruent := Double.Platform.sparse_congruent.congruentScalar
  have hperm : ([zero, x] ++ [negZero]).Perm ([negZero] ++ [zero, x]) := List.perm_append_comm
  obtain ⟨-, -, hsum, -, -, -, hbuildSum, hbuildProduct, -⟩ := operands_in_any_order hperm
  exact ⟨hperm, hsum, hbuildSum, hbuildProduct⟩

end Expr

end SymbolicAlgebra
