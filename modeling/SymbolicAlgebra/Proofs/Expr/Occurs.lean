import SymbolicAlgebra.Expr.Order

/-! # Subexpressions

`Occurs t e` says that `t` is a subexpression of `e`. Properties of all nodes of an expression are
stated by it, and the equations of `Occurs` for the kinds of nodes take them apart. -/

namespace SymbolicAlgebra.Expr

variable {α : Type}

theorem size_lt_of_mem_children {a e : Expr α} (h : a ∈ e.children) : a.size < e.size := by
  have hlist (as : List (Expr α)) (ha : a ∈ as) : a.size ≤ sizeList as := by
    induction as with
    | nil => cases ha
    | cons b as ih =>
      rw [sizeList]
      rcases List.mem_cons.mp ha with rfl | ha
      · omega
      · have := ih ha
        omega
  cases e with
  | const _ => cases h
  | var _ => cases h
  | unary f b =>
    obtain rfl := List.mem_singleton.mp h
    rw [size]
    omega
  | binary f b c =>
    rw [size]
    rcases List.mem_cons.mp h with rfl | h
    · omega
    · obtain rfl := List.mem_singleton.mp h
      omega
  | nary f as =>
    have := hlist as h
    rw [size]
    omega

/-- **Induction on expressions**: what holds of a node if it holds of its arguments holds of every
expression. -/
theorem induction_children {P : Expr α → Prop} (node : ∀ e, (∀ a ∈ e.children, P a) → P e)
    (e : Expr α) : P e :=
  node e fun a ha =>
    have := size_lt_of_mem_children ha
    induction_children node a
termination_by e.size

/-- The subexpressions of an expression, which is one of them. -/
inductive Occurs : Expr α → Expr α → Prop where
  | self (e : Expr α) : Occurs e e
  | inside {t a e : Expr α} (ha : a ∈ e.children) (h : Occurs t a) : Occurs t e

namespace Occurs

theorem iff_self_or_inside {t e : Expr α} : Occurs t e ↔ t = e ∨ ∃ a ∈ e.children, Occurs t a := by
  constructor
  · intro h
    cases h with
    | self => exact .inl rfl
    | inside ha h => exact .inr ⟨_, ha, h⟩
  · rintro (rfl | ⟨a, ha, h⟩)
    · exact .self _
    · exact .inside ha h

@[simp] theorem const_iff {t : Expr α} {x : α} : Occurs t (const x) ↔ t = const x := by
  simp [iff_self_or_inside (e := const x), children]

@[simp] theorem var_iff {t : Expr α} {c : Char} : Occurs t (var c) ↔ t = var c := by
  simp [iff_self_or_inside (e := var c), children]

@[simp] theorem unary_iff {t a : Expr α} {f : Unary} :
    Occurs t (unary f a) ↔ t = unary f a ∨ Occurs t a := by
  simp [iff_self_or_inside (e := unary f a), children]

@[simp] theorem binary_iff {t a b : Expr α} {f : Binary} :
    Occurs t (binary f a b) ↔ t = binary f a b ∨ Occurs t a ∨ Occurs t b := by
  simp [iff_self_or_inside (e := binary f a b), children]

@[simp] theorem nary_iff {t : Expr α} {f : Nary} {as : List (Expr α)} :
    Occurs t (nary f as) ↔ t = nary f as ∨ ∃ a ∈ as, Occurs t a :=
  iff_self_or_inside

theorem trans {s t e : Expr α} (h : Occurs s t) (h' : Occurs t e) : Occurs s e := by
  induction h' with
  | self => exact h
  | inside ha _ ih => exact .inside ha ih

/-- Minus an expression has its variables. -/
theorem var_neg_iff [Scalar α] {c : Char} {e : Expr α} :
    Occurs (var c) e.neg ↔ Occurs (var c) e := by
  unfold neg
  split <;> simp [productOf, ascending, StableSort.mem_sort]

end Occurs

/-- All variables of the expression are in a set. -/
def VarsIn (s : Char → Prop) (e : Expr α) : Prop := ∀ c, Occurs (var c) e → s c

namespace VarsIn

variable {s : Char → Prop}

theorem const (x : α) : (const x).VarsIn s := fun c hc => by simp at hc

theorem neg [Scalar α] {e : Expr α} (h : e.VarsIn s) : e.neg.VarsIn s := fun c hc =>
  h c (Occurs.var_neg_iff.mp hc)

theorem unary_iff {f : Unary} {a : Expr α} : (unary f a).VarsIn s ↔ a.VarsIn s := by
  simp [VarsIn]

theorem binary_iff {f : Binary} {a b : Expr α} :
    (binary f a b).VarsIn s ↔ a.VarsIn s ∧ b.VarsIn s := by
  simp [VarsIn, or_imp, forall_and]

theorem nary_iff {f : Nary} {as : List (Expr α)} :
    (nary f as).VarsIn s ↔ ∀ a ∈ as, a.VarsIn s := by
  simp only [VarsIn, Occurs.nary_iff, reduceCtorEq, false_or, forall_exists_index, and_imp]
  constructor
  · exact fun h a ha c hc => h c a ha hc
  · exact fun h c a ha hc => h a ha c hc

end VarsIn

end SymbolicAlgebra.Expr
