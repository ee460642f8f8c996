import SymbolicAlgebra.Proofs.Expr.Occurs
import SymbolicAlgebra.Proofs.Order.Sort

/-! # Well-formed expressions

An expression is well formed if every sum, product, minimum and maximum in it has at least two
arguments and keeps them in canonical order. The constructors that sort make well-formed nodes of
at least two well-formed arguments, and so does negation. -/

namespace SymbolicAlgebra.Expr

variable {α : Type} [Scalar α]

/-- **Well-formed expressions**: functions of any number of arguments have at least two, in the
canonical order of the function. -/
structure WellFormed (e : Expr α) : Prop where
  two_le_length {f : Nary} {as : List (Expr α)} : Occurs (nary f as) e → 2 ≤ as.length
  sorted {f : Nary} {as : List (Expr α)} : Occurs (nary f as) e →
    as.Pairwise fun a b => mayPrecede f a b = true

namespace WellFormed

theorem of_mem {a e : Expr α} (h : e.WellFormed) (ha : a ∈ e.children) : a.WellFormed :=
  ⟨fun hocc => h.two_le_length (.inside ha hocc), fun hocc => h.sorted (.inside ha hocc)⟩

theorem const (x : α) : (const x).WellFormed :=
  ⟨fun hocc => by simp at hocc, fun hocc => by simp at hocc⟩

theorem var (c : Char) : (var c : Expr α).WellFormed :=
  ⟨fun hocc => by simp at hocc, fun hocc => by simp at hocc⟩

theorem unary_iff {f : Unary} {a : Expr α} : (unary f a).WellFormed ↔ a.WellFormed := by
  constructor
  · exact fun h => h.of_mem List.mem_cons_self
  · intro h
    constructor
    · intro g as hocc
      exact h.two_le_length (by simpa using hocc)
    · intro g as hocc
      exact h.sorted (by simpa using hocc)

theorem binary_iff {f : Binary} {a b : Expr α} :
    (binary f a b).WellFormed ↔ a.WellFormed ∧ b.WellFormed := by
  constructor
  · exact fun h => ⟨h.of_mem List.mem_cons_self,
      h.of_mem (List.mem_cons_of_mem _ List.mem_cons_self)⟩
  · rintro ⟨ha, hb⟩
    constructor
    · intro g as hocc
      have hocc : Occurs (nary g as) a ∨ Occurs (nary g as) b := by simpa using hocc
      exact hocc.elim ha.two_le_length hb.two_le_length
    · intro g as hocc
      have hocc : Occurs (nary g as) a ∨ Occurs (nary g as) b := by simpa using hocc
      exact hocc.elim ha.sorted hb.sorted

theorem nary_iff {f : Nary} {as : List (Expr α)} : (nary f as).WellFormed ↔
    2 ≤ as.length ∧ (as.Pairwise fun a b => mayPrecede f a b = true) ∧
      ∀ a ∈ as, a.WellFormed := by
  constructor
  · exact fun h => ⟨h.two_le_length (.self _), h.sorted (.self _), fun a ha => h.of_mem ha⟩
  · rintro ⟨hlength, hsorted, has⟩
    constructor
    · intro g bs hocc
      rcases Occurs.nary_iff.mp hocc with heq | ⟨a, ha, hocc⟩
      · cases heq
        exact hlength
      · exact (has a ha).two_le_length hocc
    · intro g bs hocc
      rcases Occurs.nary_iff.mp hocc with heq | ⟨a, ha, hocc⟩
      · cases heq
        exact hsorted
      · exact (has a ha).sorted hocc

variable [OrderedScalar α]

/-- **At least two arguments, arranged, make a well-formed node.** -/
theorem arranged (f : Nary) {as : List (Expr α)} (hlength : 2 ≤ as.length)
    (has : ∀ a ∈ as, a.WellFormed) : (nary f (arrange f as)).WellFormed := by
  have hperm := arrange_perm f as
  refine nary_iff.mpr ⟨?_, arrange_pairwise f as, fun a ha => has a (hperm.mem_iff.mp ha)⟩
  rwa [hperm.length_eq]

theorem neg {e : Expr α} (h : e.WellFormed) : e.neg.WellFormed := by
  have hminus : (Expr.const Scalar.negOne : Expr α).WellFormed := .const _
  unfold Expr.neg
  split
  · next factors =>
    obtain ⟨hlength, -, hfactors⟩ := nary_iff.mp h
    refine arranged .product ?_ (List.forall_mem_cons.mpr ⟨hminus, hfactors⟩)
    rw [List.length_cons]
    omega
  · refine arranged .product (Nat.le_refl 2) ?_
    simpa using ⟨hminus, h⟩

end WellFormed

end SymbolicAlgebra.Expr
