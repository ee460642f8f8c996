import Mathlib.Data.List.Forall2
import SymbolicAlgebra.Evaluate
import SymbolicAlgebra.Proofs.Expr.Occurs

/-! # When evaluation succeeds

An expression has a value under bindings exactly if they bind every variable that occurs in it. -/

namespace SymbolicAlgebra

/-- A sequence of attempts succeeds if all of them do. -/
theorem bind_eq_ok_iff {ε β γ : Type} {x : Except ε β} {f : β → Except ε γ} {c : γ} :
    (x >>= f) = .ok c ↔ ∃ b, x = .ok b ∧ f b = .ok c := by
  cases x with
  | error fault =>
    constructor
    · intro h
      cases h
    · rintro ⟨b, h, -⟩
      cases h
  | ok b =>
    constructor
    · exact fun h => ⟨b, rfl, h⟩
    · rintro ⟨b', h, hf⟩
      cases h
      exact hf

theorem exists_bind_ok_iff {ε β γ : Type} {x : Except ε β} {f : β → Except ε γ} :
    (∃ c, (x >>= f) = .ok c) ↔ ∃ b, x = .ok b ∧ ∃ c, f b = .ok c := by
  simp only [bind_eq_ok_iff]
  constructor
  · rintro ⟨c, b, hx, hf⟩
    exact ⟨b, hx, c, hf⟩
  · rintro ⟨b, hx, c, hf⟩
    exact ⟨c, b, hx, hf⟩

namespace Expr

variable {α : Type} [Scalar α] {b : Bindings α}

/-- The bindings have a value for every variable of the expression. -/
def Bound (b : Bindings α) (e : Expr α) : Prop :=
  e.VarsIn fun c => (b.get? c).isSome = true

mutual

/-- **Evaluation succeeds exactly if every variable is bound.** -/
theorem eval_ok_iff : ∀ {e : Expr α}, (∃ x, e.eval b = .ok x) ↔ e.Bound b
  | const x => by simp [eval, Bound, VarsIn]
  | var c => by
    rw [eval, Bound, VarsIn]
    rcases hc : b.get? c with _ | x <;> simp [hc]
  | unary f a => by
    have ih : (∃ x, a.eval b = .ok x) ↔ a.Bound b := eval_ok_iff
    rw [Bound, VarsIn.unary_iff, ← Bound, ← ih, eval, exists_bind_ok_iff]
    simp
  | binary f a c => by
    have iha : (∃ x, a.eval b = .ok x) ↔ a.Bound b := eval_ok_iff
    have ihc : (∃ x, c.eval b = .ok x) ↔ c.Bound b := eval_ok_iff
    rw [Bound, VarsIn.binary_iff, ← Bound, ← Bound, ← iha, ← ihc, eval]
    simp only [exists_bind_ok_iff]
    simp
  | nary f as => by
    have ih : (∃ xs, evalList b as = .ok xs) ↔ ∀ a ∈ as, a.Bound b := evalList_ok_iff
    rw [Bound, VarsIn.nary_iff]
    refine Iff.trans ?_ ih
    rw [eval, exists_bind_ok_iff]
    simp

theorem evalList_ok_iff : ∀ {as : List (Expr α)},
    (∃ xs, evalList b as = .ok xs) ↔ ∀ a ∈ as, a.Bound b
  | [] => by simp [evalList]
  | a :: as => by
    have iha : (∃ x, a.eval b = .ok x) ↔ a.Bound b := eval_ok_iff
    have ihas : (∃ xs, evalList b as = .ok xs) ↔ ∀ a ∈ as, a.Bound b := evalList_ok_iff
    rw [List.forall_mem_cons, ← iha, ← ihas, evalList]
    simp only [exists_bind_ok_iff]
    simp

end

theorem evalList_eq_ok_iff : ∀ {as : List (Expr α)} {xs : List α},
    evalList b as = .ok xs ↔ List.Forall₂ (fun a x => a.eval b = .ok x) as xs
  | [], xs => by simp [evalList, eq_comm]
  | a :: as, xs => by
    simp only [evalList, bind_eq_ok_iff, evalList_eq_ok_iff, List.forall₂_cons_left_iff,
      Except.ok.injEq]
    constructor
    · rintro ⟨x, hx, ys, hys, rfl⟩
      exact ⟨x, ys, hx, hys, rfl⟩
    · rintro ⟨x, ys, hx, hys, rfl⟩
      exact ⟨x, hx, ys, hys, rfl⟩

theorem eval_nary_ok_iff {f : Nary} {as : List (Expr α)} {y : α} :
    (nary f as).eval b = .ok y ↔
      ∃ xs, List.Forall₂ (fun a x => a.eval b = .ok x) as xs ∧ f.apply xs = y := by
  simp only [eval, bind_eq_ok_iff, evalList_eq_ok_iff, Except.ok.injEq]

end Expr

end SymbolicAlgebra
