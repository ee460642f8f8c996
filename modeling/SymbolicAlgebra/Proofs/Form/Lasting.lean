import SymbolicAlgebra.Proofs.Form.WellFormed
import SymbolicAlgebra.Simplify.Task

/-! # Properties that last

A property of expressions *lasts* if the simplifier's ways to put expressions together and to take
them apart respect it: `Lasting P` lists these ways. Being well formed lasts (`lasting_wellFormed`),
and so does having no variables outside a given set (`lasting_varsIn`).

In between the rules build products that are not well formed, because a coefficient stands in front
of factors of any number. Such a product is `Factored P`: it need not have the property, only its
factors do. A solver *keeps* the property (`Keeps P`) if it repairs factored expressions where the
rules rely on it. -/

namespace SymbolicAlgebra

open SymbolicAlgebra.Expr (arrange mayPrecede)

variable {α : Type} [Scalar α]

/-- **A property that the simplifier's ways to build expressions respect.** -/
structure Lasting (P : Expr α → Prop) : Prop where
  const (x : α) : P (.const x)
  abs_iff {a : Expr α} : P (.bracket .abs a) ↔ P a
  trig_iff {kind : Trig} {a : Expr α} : P (.trig kind a) ↔ P a
  unary {f : Unary} {a b : Expr α} : P (.unary f a) → (P a → P b) → P (.unary f b)
  binary_iff {f : Binary} {a b : Expr α} : f ≠ .mod → (P (.binary f a b) ↔ P a ∧ P b)
  mod {a b c d : Expr α} : P (.mod a b) → (P a → P c) → (P b → P d) → P (.mod c d)
  args {f : Nary} {as : List (Expr α)} : P (.nary f as) → ∀ a ∈ as, P a
  sum {ts : List (Expr α)} : 2 ≤ ts.length → (∀ t ∈ ts, P t) → P (.sumOf ts)
  product {fs : List (Expr α)} : 2 ≤ fs.length →
    (fs.Pairwise fun f g => mayPrecede .product f g = true) → (∀ f ∈ fs, P f) → P (.product fs)
  /-- Other arguments for a node: as many as it had, or at least two. -/
  rearranged {f : Nary} {as bs : List (Expr α)} : P (.nary f as) →
    (bs.length = as.length ∨ 2 ≤ bs.length) → (∀ b ∈ bs, P b) → P (.nary f (arrange f bs))

namespace Lasting

variable {P : Expr α → Prop} (hP : Lasting P)
include hP

theorem fraction_iff {a b : Expr α} : P (.fraction a b) ↔ P a ∧ P b := hP.binary_iff (by decide)

theorem power_iff {a b : Expr α} : P (.power a b) ↔ P a ∧ P b := hP.binary_iff (by decide)

theorem log_iff {a b : Expr α} : P (.log a b) ↔ P a ∧ P b := hP.binary_iff (by decide)

theorem recip {e : Expr α} (he : P e) : P e.recip := hP.power_iff.mpr ⟨he, hP.const _⟩

theorem ln {e : Expr α} (he : P e) : P e.ln := hP.log_iff.mpr ⟨hP.const _, he⟩

theorem productOf [OrderedScalar α] {fs : List (Expr α)} (hlength : 2 ≤ fs.length)
    (hfs : ∀ f ∈ fs, P f) : P (.productOf fs) := by
  have hperm := Expr.arrange_perm .product fs
  refine hP.product ?_ (Expr.arrange_pairwise .product fs) fun f hf => hfs f (hperm.mem_iff.mp hf)
  exact hperm.length_eq.symm ▸ hlength

/-- A sum of any number of terms, downgraded. -/
theorem downgrade_sumOf {ts : List (Expr α)} (hts : ∀ t ∈ ts, P t) :
    P (Expr.sumOf ts).downgrade := by
  have hperm := Expr.arrange_perm .sum ts
  have hlasts : 2 ≤ ts.length → (∀ t ∈ ts, P t) → P (.sumOf ts) := hP.sum
  rw [Expr.sumOf] at hlasts ⊢
  rcases hsorted : Expr.descending ts with _ | ⟨t, _ | ⟨u, us⟩⟩
  · exact hP.const _
  · refine hts t (hperm.mem_iff.mp ?_)
    rw [Expr.arrange, hsorted]
    exact List.mem_cons_self
  · rw [← hsorted]
    have hlength := hperm.length_eq
    rw [Expr.arrange, hsorted] at hlength
    have hdowngrade : (Expr.sum (Expr.descending ts)).downgrade = .sum (Expr.descending ts) := by
      rw [hsorted]
      rfl
    rw [hdowngrade]
    refine hlasts ?_ hts
    rw [← hlength, List.length_cons, List.length_cons]
    omega

/-- A product of any number of factors in order, downgraded. -/
theorem downgrade_product {fs : List (Expr α)}
    (hsorted : fs.Pairwise fun f g => mayPrecede .product f g = true) (hfs : ∀ f ∈ fs, P f) :
    P (Expr.product fs).downgrade := by
  match fs with
  | [] => exact hP.const _
  | [f] => exact hfs f List.mem_cons_self
  | f :: g :: fs => exact hP.product (Nat.le_add_left 2 fs.length) hsorted hfs

end Lasting

/-! ### Two properties that last -/

open SymbolicAlgebra.Expr (Occurs WellFormed)

/-- **Being well formed lasts.** -/
theorem lasting_wellFormed [OrderedScalar α] : Lasting (WellFormed (α := α)) where
  const := .const
  abs_iff := WellFormed.unary_iff
  trig_iff := WellFormed.unary_iff
  unary h hab := WellFormed.unary_iff.mpr (hab (WellFormed.unary_iff.mp h))
  binary_iff _ := WellFormed.binary_iff
  mod h hac hbd := by
    obtain ⟨ha, hb⟩ := WellFormed.binary_iff.mp h
    exact WellFormed.binary_iff.mpr ⟨hac ha, hbd hb⟩
  args h := (WellFormed.nary_iff.mp h).2.2
  sum := WellFormed.arranged .sum
  product hlength hsorted hfs := WellFormed.nary_iff.mpr ⟨hlength, hsorted, hfs⟩
  rearranged {f as bs} h hlength hbs := by
    have htwo : 2 ≤ as.length := (WellFormed.nary_iff.mp h).1
    refine WellFormed.arranged f ?_ hbs
    rcases hlength with heq | hle
    · rwa [heq]
    · exact hle

/-- **Having no variables outside a set lasts.** -/
theorem lasting_varsIn (s : Char → Prop) : Lasting (Expr.VarsIn (α := α) s) where
  const := .const
  abs_iff := Expr.VarsIn.unary_iff
  trig_iff := Expr.VarsIn.unary_iff
  unary h hab := Expr.VarsIn.unary_iff.mpr (hab (Expr.VarsIn.unary_iff.mp h))
  binary_iff _ := Expr.VarsIn.binary_iff
  mod h hac hbd := by
    obtain ⟨ha, hb⟩ := Expr.VarsIn.binary_iff.mp h
    exact Expr.VarsIn.binary_iff.mpr ⟨hac ha, hbd hb⟩
  args := Expr.VarsIn.nary_iff.mp
  sum {ts} _ hts := Expr.VarsIn.nary_iff.mpr fun t ht =>
    hts t ((Expr.arrange_perm .sum ts).mem_iff.mp ht)
  product _ _ := Expr.VarsIn.nary_iff.mpr
  rearranged {f as bs} _ _ hbs := Expr.VarsIn.nary_iff.mpr fun b hb =>
    hbs b ((Expr.arrange_perm f bs).mem_iff.mp hb)

/-! ### Factored expressions -/

/-- An expression with the property, or a product of factors with the property. -/
def Factored (P : Expr α → Prop) (e : Expr α) : Prop :=
  P e ∨ ∃ fs, e = .product fs ∧ ∀ f ∈ fs, P f

namespace Factored

variable {P : Expr α → Prop}

omit [Scalar α] in
theorem of_all {es : List (Expr α)} (h : ∀ e ∈ es, P e) : ∀ e ∈ es, Factored P e :=
  fun e he => .inl (h e he)

omit [Scalar α] in
theorem product {fs : List (Expr α)} (h : ∀ f ∈ fs, P f) : Factored P (.product fs) :=
  .inr ⟨fs, rfl, h⟩

theorem factors (hP : Lasting P) {fs : List (Expr α)} (h : Factored P (.product fs)) :
    ∀ f ∈ fs, P f := by
  rcases h with h | ⟨gs, heq, hgs⟩
  · exact hP.args h
  · cases heq
    exact hgs

omit [Scalar α] in
theorem of_not_product {e : Expr α} (h : Factored P e) (he : ∀ fs, e ≠ .product fs) : P e :=
  h.resolve_right fun ⟨fs, heq, _⟩ => he fs heq

end Factored

/-! ### Solvers -/

/-- **A solver that keeps a property**, or brings it about for a factored expression. -/
structure Keeps (P : Expr α → Prop) (solve : Solver α) : Prop where
  step {e r : Expr α} : Factored P e → solve (.step e) = some r → P r
  sum {ts : List (Expr α)} {r : Expr α} : (∀ t ∈ ts, P t) → solve (.sum ts) = some r → P r
  sum_products {fs gs : List (Expr α)} {r : Expr α} : (∀ f ∈ fs, P f) → (∀ g ∈ gs, P g) →
    solve (.sum [.product fs, .product gs]) = some r → P r
  product {fs : List (Expr α)} {r : Expr α} : (∀ f ∈ fs, P f) → solve (.product fs) = some r → P r
  scaled {c : α} {fs : List (Expr α)} {r : Expr α} : (∀ f ∈ fs, P f) →
    solve (.product [.const c, .product fs]) = some r → Factored P r

namespace Keeps

variable {P : Expr α → Prop} {solve : Solver α} (hs : Keeps P solve)
include hs

omit [Scalar α] in
theorem step_kept {e r : Expr α} (he : P e) (h : solve (.step e) = some r) : P r :=
  hs.step (.inl he) h

omit [Scalar α] in
theorem product_pair {a b r : Expr α} (ha : P a) (hb : P b)
    (h : solve (.product [a, b]) = some r) : P r :=
  hs.product (List.forall_mem_cons.mpr ⟨ha, List.forall_mem_singleton.mpr hb⟩) h

omit [Scalar α] in
theorem steps : ∀ {es rs : List (Expr α)}, (∀ e ∈ es, Factored P e) → solve.steps es = some rs →
    rs.length = es.length ∧ ∀ r ∈ rs, P r
  | [], rs, _, h => by
    simp only [Solver.steps, Option.some.injEq] at h
    simp [← h]
  | e :: es, rs, hes, h => by
    simp only [Solver.steps, Option.bind_eq_bind, Option.bind_eq_some_iff, Option.some.injEq] at h
    obtain ⟨r, hr, rs', hrs, rfl⟩ := h
    obtain ⟨he, hes⟩ := List.forall_mem_cons.mp hes
    obtain ⟨hlength, hrest⟩ := steps hes hrs
    exact ⟨by rw [List.length_cons, List.length_cons, hlength],
      List.forall_mem_cons.mpr ⟨hs.step he hr, hrest⟩⟩

end Keeps

end SymbolicAlgebra
