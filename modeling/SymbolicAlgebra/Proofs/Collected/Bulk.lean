import Mathlib.Algebra.BigOperators.Group.List.Basic
import Mathlib.Algebra.Order.BigOperators.Group.List
import Mathlib.Tactic.Ring
import SymbolicAlgebra.Proofs.Congruence.Shape

/-! # Bulk

The bulk of an expression is additive over sums and multiplicative over products, fractions and
constant powers, so distributing, flattening and collecting do not increase it. Any other exponent
counts by its degree: merging like bases adds exponents, which bounds the degree by the larger one
instead of adding the degrees. An *atom* is a function that is not taken apart by sums and products;
the degree of an exponent exceeds the size of each atom in it, so that a logarithm outweighs its
argument, which may take the place of a power. -/

namespace SymbolicAlgebra

/-- Numbers among which one is the unit of products, quotients and powers, and negative zero the
unit of sums. -/
class StandardScalar (α : Type) [Scalar α] : Prop extends CongruentScalar α where
  one_eq_one : Scalar.eq (Scalar.one : α) Scalar.one = true
  one_eq_zero : Scalar.eq (Scalar.one : α) Scalar.zero = false
  one_lt_thousand : Scalar.lt (Scalar.one : α) Scalar.thousand = true
  isIntegral_one : Scalar.isIntegral (Scalar.one : α) = true
  negZero_eq_zero : Scalar.eq (Scalar.negZero : α) Scalar.zero = true
  negZero_add_one : Scalar.Same (Scalar.add Scalar.negZero Scalar.one) (Scalar.one : α)
  one_mul_one : Scalar.Same (Scalar.mul Scalar.one Scalar.one) (Scalar.one : α)
  one_div_one : Scalar.Same (Scalar.div Scalar.one Scalar.one) (Scalar.one : α)
  one_pow (x : α) : Scalar.Same (Scalar.pow Scalar.one x) Scalar.one

namespace Expr

variable {α : Type}

/-! ### Atoms -/

/-- A function whose arguments sums and products do not look into. -/
def isAtom : Expr α → Bool
  | unary _ _ => true
  | log _ _ => true
  | mod _ _ => true
  | min _ => true
  | max _ => true
  | _ => false

mutual

/-- The size of the largest atom. -/
def atomSize : Expr α → Nat
  | const _ => 0
  | var _ => 0
  | unary f a => (unary f a).size
  | fraction a b => Nat.max a.atomSize b.atomSize
  | power a b => Nat.max a.atomSize b.atomSize
  | log a b => (log a b).size
  | mod a b => (mod a b).size
  | sum as => atomSizeList as
  | product as => atomSizeList as
  | min as => (min as).size
  | max as => (max as).size

/-- The size of the largest atom of all expressions of a list. -/
def atomSizeList : List (Expr α) → Nat
  | [] => 0
  | a :: as => Nat.max a.atomSize (atomSizeList as)

end

/-- What an exponent adds to the bulk of a power: nothing if it is constant. -/
def degree (e : Expr α) : Nat := if e.isConst then 0 else e.atomSize + 1

theorem atomSizeList_le {as : List (Expr α)} {n : Nat} :
    atomSizeList as ≤ n ↔ ∀ a ∈ as, a.atomSize ≤ n := by
  induction as with
  | nil => simp [atomSizeList]
  | cons a as ih => simp [atomSizeList, ih]

mutual

theorem atomSize_le_size : ∀ e : Expr α, e.atomSize ≤ e.size
  | const _ | var _ => Nat.zero_le _
  | unary _ _ | log _ _ | mod _ _ | min _ | max _ => Nat.le_refl _
  | fraction a b | power a b => by
    have ha := atomSize_le_size a
    have hb := atomSize_le_size b
    rw [atomSize, size]
    exact Nat.max_le.mpr ⟨by omega, by omega⟩
  | sum as | product as => by
    have has := atomSizeList_le_size as
    rw [atomSize, size]
    omega

theorem atomSizeList_le_size : ∀ as : List (Expr α), atomSizeList as ≤ sizeList as
  | [] => Nat.le_refl _
  | a :: as => by
    have ha := atomSize_le_size a
    have has := atomSizeList_le_size as
    rw [atomSizeList, sizeList]
    exact Nat.max_le.mpr ⟨by omega, by omega⟩

end

theorem size_pos (e : Expr α) : 0 < e.size := by
  cases e <;> rw [size] <;> omega

theorem degree_eq_zero {e : Expr α} (h : e.isConst = true) : e.degree = 0 := if_pos h

theorem degree_le {x y : Expr α} (hsize : x.atomSize ≤ y.atomSize)
    (hconst : y.isConst = true → x.isConst = true) : x.degree ≤ y.degree := by
  rw [degree, degree]
  split_ifs <;> simp_all

/-! ### Bulk -/

variable [Scalar α]

mutual

/-- The bulk of an expression. -/
def bulk : Expr α → Nat
  | const x => if Scalar.eq x Scalar.one then 1 else 2
  | var _ => 2
  | unary _ _ => 2
  | fraction a b => a.bulk * b.bulk
  | power b e => b.bulk * 2 ^ e.degree
  | log _ _ => 2
  | mod _ _ => 2
  | sum as => addBulks as + 2
  | product as => multiplyBulks as
  | min _ => 2
  | max _ => 2

/-- The sum of the bulks of a list. -/
def addBulks : List (Expr α) → Nat
  | [] => 0
  | a :: as => a.bulk + addBulks as

/-- The product of the bulks of a list. -/
def multiplyBulks : List (Expr α) → Nat
  | [] => 1
  | a :: as => a.bulk * multiplyBulks as

end

theorem addBulks_eq (as : List (Expr α)) : addBulks as = (as.map bulk).sum := by
  induction as with
  | nil => rfl
  | cons a as ih => rw [addBulks, ih, List.map_cons, List.sum_cons]

theorem multiplyBulks_eq (as : List (Expr α)) :
    multiplyBulks as = (as.map bulk).prod := by
  induction as with
  | nil => rfl
  | cons a as ih => rw [multiplyBulks, ih, List.map_cons, List.prod_cons]

@[simp] theorem bulk_sum (ts : List (Expr α)) :
    (sum ts).bulk = (ts.map bulk).sum + 2 := by
  rw [bulk, addBulks_eq]

@[simp] theorem bulk_product (fs : List (Expr α)) :
    (product fs).bulk = (fs.map bulk).prod := by
  rw [bulk, multiplyBulks_eq]

@[simp] theorem bulk_fraction (a b : Expr α) :
    (fraction a b).bulk = a.bulk * b.bulk := by
  rw [bulk]

theorem bulk_power (b e : Expr α) : (power b e).bulk = b.bulk * 2 ^ e.degree := by
  rw [bulk]

theorem bulk_power_const (b : Expr α) (x : α) : (power b (const x)).bulk = b.bulk := by
  rw [bulk_power, degree_eq_zero rfl, Nat.pow_zero, Nat.mul_one]

theorem bulk_const_le (x : α) : (const x).bulk ≤ 2 := by
  rw [bulk]
  split_ifs <;> omega

theorem bulk_const_of_ne {x : α} (h : Scalar.eq x Scalar.one = false) :
    (const x).bulk = 2 := by
  rw [bulk, h, if_neg Bool.false_ne_true]

mutual

theorem bulk_pos : ∀ e : Expr α, 0 < e.bulk
  | const x => by
    rw [bulk]
    split_ifs <;> omega
  | var _ | unary _ _ | log _ _ | mod _ _ | min _ | max _ => by
    rw [bulk]
    omega
  | fraction a b => by
    rw [bulk]
    exact Nat.mul_pos (bulk_pos a) (bulk_pos b)
  | power b e => by
    rw [bulk]
    exact Nat.mul_pos (bulk_pos b) (Nat.two_pow_pos _)
  | sum _ => by
    rw [bulk]
    omega
  | product as => by
    rw [bulk]
    exact multiplyBulks_pos as

theorem multiplyBulks_pos : ∀ as : List (Expr α), 0 < multiplyBulks as
  | [] => Nat.one_pos
  | a :: as => Nat.mul_pos (bulk_pos a) (multiplyBulks_pos as)

end

theorem prod_bulk_pos (as : List (Expr α)) : 0 < (as.map bulk).prod := by
  rw [← multiplyBulks_eq]
  exact multiplyBulks_pos as

/-- Numbers from two on multiply to at least their sum. -/
theorem add_le_mul {m n : Nat} (hm : 2 ≤ m) (hn : 2 ≤ n) : m + n ≤ m * n := by
  obtain ⟨k, rfl⟩ := Nat.exists_eq_add_of_le hm
  obtain ⟨l, rfl⟩ := Nat.exists_eq_add_of_le hn
  have hexpand : (2 + k) * (2 + l) = 4 + 2 * k + 2 * l + k * l := by ring
  omega

theorem two_le_two_pow {n : Nat} (h : 0 < n) : 2 ≤ 2 ^ n := by
  calc 2 = 2 ^ 1 := rfl
    _ ≤ 2 ^ n := Nat.pow_le_pow_right (by omega) h

mutual

/-- **The bulk is at most exponential in the size.** -/
theorem bulk_le_two_pow : ∀ e : Expr α, e.bulk ≤ 2 ^ e.size
  | const x => bulk_const_le x
  | var _ => Nat.le_refl _
  | unary _ _ | log _ _ | mod _ _ | min _ | max _ => by
    rw [bulk, size]
    exact two_le_two_pow (Nat.succ_pos _)
  | fraction a b => by
    rw [bulk, size]
    calc a.bulk * b.bulk ≤ 2 ^ a.size * 2 ^ b.size :=
          Nat.mul_le_mul (bulk_le_two_pow a) (bulk_le_two_pow b)
      _ = 2 ^ (a.size + b.size) := (Nat.pow_add ..).symm
      _ ≤ 2 ^ (a.size + b.size + 1) := Nat.pow_le_pow_right (by omega) (by omega)
  | power b e => by
    have hdegree : e.degree ≤ e.size + 1 := by
      have he := atomSize_le_size e
      rw [degree]
      split_ifs <;> omega
    rw [bulk, size]
    calc b.bulk * 2 ^ e.degree ≤ 2 ^ b.size * 2 ^ (e.size + 1) :=
          Nat.mul_le_mul (bulk_le_two_pow b) (Nat.pow_le_pow_right (by omega) hdegree)
      _ = 2 ^ (b.size + e.size + 1) := (Nat.pow_add ..).symm
  | sum as => by
    rw [bulk, size]
    exact addBulks_le_two_pow as
  | product as => by
    rw [bulk, size]
    exact (multiplyBulks_le_two_pow as).trans (Nat.pow_le_pow_right (by omega) (by omega))

theorem addBulks_le_two_pow : ∀ as : List (Expr α), addBulks as + 2 ≤ 2 ^ (sizeList as + 1)
  | [] => Nat.le_refl _
  | a :: as => by
    have ha := bulk_le_two_pow a
    have has := addBulks_le_two_pow as
    rw [addBulks, sizeList]
    calc a.bulk + addBulks as + 2 ≤ 2 ^ a.size + 2 ^ (sizeList as + 1) := by omega
      _ ≤ 2 ^ a.size * 2 ^ (sizeList as + 1) :=
        add_le_mul (two_le_two_pow (size_pos a)) (two_le_two_pow (Nat.succ_pos _))
      _ = 2 ^ (a.size + sizeList as + 1) := (Nat.pow_add ..).symm

theorem multiplyBulks_le_two_pow : ∀ as : List (Expr α), multiplyBulks as ≤ 2 ^ sizeList as
  | [] => Nat.le_refl _
  | a :: as => by
    rw [multiplyBulks, sizeList, Nat.pow_add]
    exact Nat.mul_le_mul (bulk_le_two_pow a) (multiplyBulks_le_two_pow as)

end

/-! ### Equal expressions -/

namespace Same

mutual

theorem atomSize_eq : ∀ {a b : Expr α}, Same a b → a.atomSize = b.atomSize
  | .const _, _, h | .var _, _, h => by
    cases h.node
    rfl
  | .unary _ _, _, h => by
    have hsize := h.size_eq
    cases h.node
    exact hsize
  | .binary f _ _, _, h => by
    have hsize := h.size_eq
    cases h.node with
    | binary f ha hb =>
      cases f with
      | fraction => rw [atomSize, atomSize, atomSize_eq ha, atomSize_eq hb]
      | power => rw [atomSize, atomSize, atomSize_eq ha, atomSize_eq hb]
      | log => exact hsize
      | mod => exact hsize
  | .nary f _, _, h => by
    have hsize := h.size_eq
    cases h.node with
    | nary f hs =>
      cases f with
      | sum => rw [atomSize, atomSize, atomSizeList_eq hs]
      | product => rw [atomSize, atomSize, atomSizeList_eq hs]
      | min => exact hsize
      | max => exact hsize

theorem atomSizeList_eq : ∀ {as bs : List (Expr α)}, List.Forall₂ Same as bs →
    atomSizeList as = atomSizeList bs
  | [], _, .nil => rfl
  | _ :: _, _, .cons h hs => by
    rw [atomSizeList, atomSizeList, atomSize_eq h, atomSizeList_eq hs]

end

theorem degree_eq {a b : Expr α} (h : Same a b) : a.degree = b.degree := by
  rw [degree, degree, h.isConst_eq, h.atomSize_eq]

theorem isAtom_eq {a b : Expr α} (h : Same a b) : a.isAtom = b.isAtom := by
  cases h.node with
  | binary f _ _ => cases f <;> rfl
  | nary f _ => cases f <;> rfl
  | _ => rfl

mutual

theorem bulk_eq [OrderedScalar α] : ∀ {a b : Expr α}, Same a b → a.bulk = b.bulk
  | .const _, _, h => by
    cases h.node with | const hx => rw [bulk, bulk, hx.eq_eq (.refl Scalar.one)]
  | .var _, _, h | .unary _ _, _, h => by
    cases h.node
    rfl
  | .binary f _ _, _, h => by
    cases h.node with
    | binary f ha hb =>
      cases f with
      | fraction => rw [bulk, bulk, bulk_eq ha, bulk_eq hb]
      | power => rw [bulk, bulk, bulk_eq ha, hb.degree_eq]
      | log => rfl
      | mod => rfl
  | .nary f _, _, h => by
    cases h.node with
    | nary f hs =>
      cases f with
      | sum => rw [bulk, bulk, addBulks_eq_of_same hs]
      | product => rw [bulk, bulk, multiplyBulks_eq_of_same hs]
      | min => rfl
      | max => rfl

theorem addBulks_eq_of_same [OrderedScalar α] : ∀ {as bs : List (Expr α)}, List.Forall₂ Same as bs →
    addBulks as = addBulks bs
  | [], _, .nil => rfl
  | _ :: _, _, .cons h hs => by
    rw [addBulks, addBulks, bulk_eq h, addBulks_eq_of_same hs]

theorem multiplyBulks_eq_of_same [OrderedScalar α] : ∀ {as bs : List (Expr α)}, List.Forall₂ Same as bs →
    multiplyBulks as = multiplyBulks bs
  | [], _, .nil => rfl
  | _ :: _, _, .cons h hs => by
    rw [multiplyBulks, multiplyBulks, bulk_eq h, multiplyBulks_eq_of_same hs]

end

end Same

end Expr

end SymbolicAlgebra
