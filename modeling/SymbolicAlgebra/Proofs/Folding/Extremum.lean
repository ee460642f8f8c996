import SymbolicAlgebra.Proofs.Collected.Tame
import SymbolicAlgebra.Proofs.Double.Order
import SymbolicAlgebra.Proofs.Expr.Evaluate
import SymbolicAlgebra.Proofs.Form.Numbers
import SymbolicAlgebra.Proofs.Order.Extremum

/-! # Folding a part of a minimum or maximum

A step at a minimum or maximum takes a step at each argument, folds the arguments that are numbers
into one if that is finite, and sorts the result again. The value stays the same, whatever the
numbers are, since it does not matter in which order the values of the arguments come or whether
some of them are replaced by their own extremum (`Extremum.apply_append_apply`). And nothing is left
to fold: at most one argument is a number then (`extremum_folds_numbers`). -/

namespace SymbolicAlgebra

variable {α : Type} [Scalar α]

namespace Extremum

open Scalar (Same)
open Simplify (foldConstants foldConstants_cases)

/-! ### What is folded -/

/-- The node of this name, with its arguments in their canonical order. -/
def build : Extremum → List (Expr α) → Expr α
  | min => Expr.minOf
  | max => Expr.maxOf

/-- The simplified arguments with their numbers folded. -/
def fold (k : Extremum) (ss : List (Expr α)) : Expr α := foldConstants k.node k.build ss

/-- The extremum of the numbers among the arguments. -/
def folded (k : Extremum) (ss : List (Expr α)) : α := k.node.apply (ss.filterMap Expr.constant?)

theorem build_eq (k : Extremum) (es : List (Expr α)) :
    k.build es = .nary k.node (Expr.ascending es) := by
  cases k <;> rfl

variable {k : Extremum} {ss : List (Expr α)}

/-! ### The value -/

section Value
variable [OrderedScalar α] {b : Bindings α}

/-- A node has its value whatever the order of its arguments. -/
theorem eval_build {es : List (Expr α)} {xs : List α}
    (h : List.Forall₂ (fun e x => e.eval b = .ok x) es xs) :
    ∃ y, (k.build es).eval b = .ok y ∧ Same y (k.node.apply xs) := by
  obtain ⟨ys, hys, hperm⟩ := List.perm_comp_forall₂ (StableSort.sort_perm _ es) h
  refine ⟨k.node.apply ys, ?_, apply_perm hperm⟩
  rw [build_eq, Expr.eval_nary_ok_iff]
  exact ⟨ys, hys, rfl⟩

/-- **Folding keeps the value**: the numbers among the values are put last, and then they may be
replaced by their extremum. -/
theorem eval_fold {xs : List α} (h : List.Forall₂ (fun s x => s.eval b = .ok x) ss xs) :
    ∃ x, (k.fold ss).eval b = .ok x ∧ Same x (k.node.apply xs) := by
  obtain ⟨rs, vs, hrs, hvs, hperm⟩ := Expr.forall₂_parted h
  have hnumbers : ss.filterMap Expr.constant? = vs := by
    rw [← Expr.numbers_filter, ← List.map_id vs]
    exact Expr.numbers_eq_map Except.ok.inj hvs fun s hs => (List.mem_filter.mp hs).2
  suffices h : ∃ x, (k.fold ss).eval b = .ok x ∧ Same x (k.node.apply (rs ++ vs)) by
    obtain ⟨x, hx, hsame⟩ := h
    exact ⟨x, hx, hsame.trans (apply_perm hperm)⟩
  unfold fold
  obtain ⟨hnone, hfold⟩ | ⟨-, ⟨hall, hfold⟩ | ⟨-, hfold⟩ | ⟨-, hfold⟩⟩ :=
    foldConstants_cases k.node k.build ss
  · rw [hfold, ← hnumbers, Expr.numbers_eq_nil_iff.mpr hnone, List.append_nil]
    exact eval_build hrs
  · have hrest : ss.filter (fun s => !s.isConst) = [] := by
      simpa [List.filter_eq_nil_iff] using hall
    rw [hrest, List.forall₂_nil_left_iff] at hrs
    rw [hfold, hrs, List.nil_append, hnumbers]
    exact ⟨_, rfl, .refl _⟩
  · have hlast : List.Forall₂ (fun (s : Expr α) x => s.eval b = .ok x)
        [.const (k.node.apply vs)] [k.node.apply vs] := .cons rfl .nil
    obtain ⟨x, hx, hsame⟩ := eval_build (k := k) (List.rel_append hrs hlast)
    rw [hfold, hnumbers]
    exact ⟨x, hx, hsame.trans (apply_append_apply rs vs)⟩
  · rw [hfold]
    exact eval_build (List.rel_append hrs hvs)

end Value

/-! ### What is left -/

/-- Sorting the arguments of a node keeps the numbers among them. -/
theorem constants_build (k : Extremum) (es : List (Expr α)) :
    ((k.build es).children.filter Expr.isConst).Perm (es.filter Expr.isConst) := by
  rw [build_eq]
  exact (StableSort.sort_perm _ es).filter _

omit [Scalar α] in
theorem constants_rest (ss : List (Expr α)) :
    (ss.filter fun e => !e.isConst).filter Expr.isConst = [] := by
  simp [List.filter_filter]

/-- **What a step at a minimum or maximum comes to**, when these are its simplified arguments: an
expression of the same value wherever they have values, and one in which the numbers among them are
folded if their extremum is finite. -/
structure FoldsTo (k : Extremum) (ss : List (Expr α)) (e : Expr α) : Prop where
  value (b : Bindings α) : (∀ s ∈ ss, ∃ x, s.eval b = .ok x) →
    ∃ x y, e.eval b = .ok x ∧ (Expr.nary k.node ss).eval b = .ok y ∧ Same x y
  few : Scalar.isFinite (k.folded ss) = true → (e.children.filter Expr.isConst).length ≤ 1
  alone : Scalar.isFinite (k.folded ss) = true → ss ≠ [] → (∀ s ∈ ss, s.isConst = true) →
    e = .const (k.folded ss)
  beside : Scalar.isFinite (k.folded ss) = true → (∃ s ∈ ss, s.isConst = true) →
    (∃ s ∈ ss, s.isConst = false) → e.children.filter Expr.isConst = [.const (k.folded ss)]

omit [Scalar α] in
theorem not_all_const (h : ∃ s ∈ ss, s.isConst = false) : ¬ ∀ s ∈ ss, s.isConst = true := by
  simpa using h

theorem foldsTo_fold [OrderedScalar α] (k : Extremum) (ss : List (Expr α)) :
    k.FoldsTo ss (k.fold ss) where
  value b hss := by
    obtain ⟨xs, hxs⟩ := Expr.evalList_ok_iff.mpr fun s hs => Expr.eval_ok_iff.mp (hss s hs)
    have hargs := Expr.evalList_eq_ok_iff.mp hxs
    obtain ⟨x, hx, hsame⟩ := eval_fold (k := k) hargs
    exact ⟨x, _, hx, Expr.eval_nary_ok_iff.mpr ⟨xs, hargs, rfl⟩, hsame⟩
  few hfinite := by
    unfold fold
    obtain ⟨-, hfold⟩ | ⟨-, ⟨-, hfold⟩ | ⟨-, hfold⟩ | ⟨hinfinite, -⟩⟩ :=
      foldConstants_cases k.node k.build ss
    · rw [hfold, (constants_build k _).length_eq, constants_rest]
      exact Nat.zero_le 1
    · rw [hfold]
      exact Nat.zero_le 1
    · rw [hfold, (constants_build k _).length_eq, List.filter_append, constants_rest]
      exact Nat.le_refl 1
    · exact absurd hfinite (Bool.eq_false_iff.mp hinfinite)
  alone hfinite hne hall := by
    obtain ⟨hnone, -⟩ | ⟨-, ⟨-, hfold⟩ | ⟨hsome, -⟩ | ⟨hinfinite, -⟩⟩ :=
      foldConstants_cases k.node k.build ss
    · obtain ⟨s, hs⟩ := List.exists_mem_of_ne_nil ss hne
      exact absurd (hall s hs) (Bool.eq_false_iff.mp (hnone s hs))
    · exact hfold
    · exact absurd hall (not_all_const hsome)
    · exact absurd hfinite (Bool.eq_false_iff.mp hinfinite)
  beside hfinite hnumber hother := by
    unfold fold
    obtain ⟨hnone, -⟩ | ⟨-, ⟨hall, -⟩ | ⟨-, hfold⟩ | ⟨hinfinite, -⟩⟩ :=
      foldConstants_cases k.node k.build ss
    · obtain ⟨s, hs, hconst⟩ := hnumber
      exact absurd hconst (Bool.eq_false_iff.mp (hnone s hs))
    · exact absurd hall (not_all_const hother)
    · have hperm := constants_build k ((ss.filter fun s => !s.isConst) ++ [.const (k.folded ss)])
      rw [List.filter_append, constants_rest] at hperm
      rw [hfold]
      exact List.perm_singleton.mp hperm
    · exact absurd hfinite (Bool.eq_false_iff.mp hinfinite)

/-! ### Steps -/

open Simplify (solve solve_mono fuelFor)

/-- A step at a node, when the steps at its arguments are known. -/
theorem solve_node {depth : Nat} {cs : List (Expr α)}
    (h : (solve depth : Solver α).steps cs = some ss) :
    solve (depth + 1) (.step (.nary k.node cs)) = some (k.fold ss) := by
  cases k with
  | min =>
    show Simplify.stepMin (solve depth) cs = _
    rw [Simplify.stepMin, h]
    rfl
  | max =>
    show Simplify.stepMax (solve depth) cs = _
    rw [Simplify.stepMax, h]
    rfl

/-- Steps at the arguments that have results have them at some depth together. -/
theorem steps_of_comesTo {cs : List (Expr α)}
    (h : List.Forall₂ (fun c s => (Task.step c).ComesTo s) cs ss) :
    ∃ depth, (solve depth : Solver α).steps cs = some ss := by
  induction h with
  | nil => exact ⟨0, rfl⟩
  | @cons c s cs ss hc _ ih =>
    obtain ⟨m, hm⟩ := hc
    obtain ⟨n, hn⟩ := ih
    have hgrows {i j : Nat} (hle : i ≤ j) : (solve i : Solver α).Grows (solve j) :=
      fun _ _ => solve_mono hle
    refine ⟨Nat.max m n, ?_⟩
    rw [Solver.steps, solve_mono (Nat.le_max_left m n) hm,
      Simplify.steps_persists (hgrows (Nat.le_max_right m n)) cs _ hn]
    rfl

theorem comesTo_fold {cs : List (Expr α)}
    (h : List.Forall₂ (fun c s => (Task.step c).ComesTo s) cs ss) :
    (Task.step (.nary k.node cs)).ComesTo (k.fold ss) := by
  obtain ⟨depth, hsteps⟩ := steps_of_comesTo h
  exact ⟨depth + 1, solve_node hsteps⟩

/-- What can be done with the fuel for it is done with more. -/
theorem solve_of_isSome {e : Expr α} {depth : Nat} (hdepth : fuelFor (.step e) ≤ depth)
    (h : (solve (fuelFor (.step e)) (.step e)).isSome = true) :
    solve depth (.step e) = some e.simplifyStep := by
  obtain ⟨r, hr⟩ := Option.isSome_iff_exists.mp h
  rw [solve_mono hdepth hr, Expr.simplifyStep, Simplify.run, hr, Option.getD_some]

theorem steps_of_isSome {depth : Nat} : ∀ {cs : List (Expr α)},
    (∀ c ∈ cs, fuelFor (.step c) ≤ depth) →
    (∀ c ∈ cs, (solve (fuelFor (.step c)) (.step c)).isSome = true) →
    (solve depth : Solver α).steps cs = some (cs.map Expr.simplifyStep)
  | [], _, _ => rfl
  | c :: cs, hdepth, h => by
    obtain ⟨hc, hcs⟩ := List.forall_mem_cons.mp h
    obtain ⟨hle, hles⟩ := List.forall_mem_cons.mp hdepth
    rw [Solver.steps, solve_of_isSome hle hc, steps_of_isSome hles hcs]
    rfl

omit [Scalar α] in
/-- A node has fuel for its arguments, and for one more call. -/
theorem fuelFor_lt {c : Expr α} {cs : List (Expr α)} (h : c ∈ cs) :
    fuelFor (.step c) < fuelFor (.step (.nary k.node cs)) := by
  rw [fuelFor, fuelFor, Nat.one_shiftLeft, Nat.one_shiftLeft]
  refine Nat.pow_lt_pow_right (Nat.lt_succ_self 1) (Nat.add_lt_add_right ?_ 16)
  exact Expr.size_lt_of_mem_children h

/-- **A step at a node** folds what steps at its arguments come to, if there is fuel for these. -/
theorem simplifyStep_eq {cs : List (Expr α)}
    (h : ∀ c ∈ cs, (solve (fuelFor (.step c)) (.step c)).isSome = true) :
    (Expr.nary k.node cs).simplifyStep = k.fold (cs.map Expr.simplifyStep) := by
  obtain ⟨depth, hdepth⟩ := Simplify.fuelFor_eq_succ (.step (.nary k.node cs))
  have hle (c : Expr α) (hc : c ∈ cs) : fuelFor (.step c) ≤ depth := by
    have hlt := fuelFor_lt (k := k) hc
    rw [hdepth] at hlt
    exact Nat.lt_succ_iff.mp hlt
  rw [Expr.simplifyStep, Simplify.run, hdepth, solve_node (steps_of_isSome hle h),
    Option.getD_some]

end Extremum

open Extremum in
/-- **Minima and maxima are folded in part, and keep their value.** Their functions give the same
result for the numbers in any order, and no number if and only if one of them is none. A step at a
minimum or maximum comes to something if steps at its arguments do, and folds what these come to: it
has the value of the minimum or maximum of the simplified arguments wherever they have values, also
where these are infinite or no numbers, and if the numbers among them have a finite extremum, it
stands in place of all of them. Of the numbers nothing is assumed but their order, and that the
infinities are numbers. -/
theorem extremum_folds_numbers (α : Type) [Scalar α] [OrderedScalar α]
    (hstart : ∀ k : Extremum, Scalar.isNaN (k.start : α) = false) :
    (∀ (k : Extremum) (xs ys : List α), xs.Perm ys →
      Scalar.Same (k.node.apply xs) (k.node.apply ys)) ∧
    (∀ (k : Extremum) (xs : List α),
      Scalar.isNaN (k.node.apply xs) = true ↔ ∃ x ∈ xs, Scalar.isNaN x = true) ∧
    (∀ (k : Extremum) (cs ss : List (Expr α)),
      List.Forall₂ (fun c s => (Task.step c).ComesTo s) cs ss →
        ∃ e, (Task.step (.nary k.node cs)).ComesTo e ∧ k.FoldsTo ss e) ∧
    ∀ (k : Extremum) (cs : List (Expr α)),
      (∀ c ∈ cs, (Simplify.solve (Simplify.fuelFor (.step c)) (.step c)).isSome = true) →
        k.FoldsTo (cs.map Expr.simplifyStep) (Expr.nary k.node cs).simplifyStep :=
  ⟨fun _ _ _ h => apply_perm h, fun k _ => isNaN_apply_iff (hstart k),
    fun k _ ss h => ⟨k.fold ss, comesTo_fold h, foldsTo_fold k ss⟩,
    fun k _ h => simplifyStep_eq (k := k) h ▸ foldsTo_fold k _⟩

/-- The maximum of three, a variable and one is the maximum of three and the variable. -/
theorem extremum_folds_numbers_three_x :
    let cs : List (Expr Float) := [.const 3, .var 'x', .const 1]
    let e := (Expr.max cs).simplifyStep
    e.children.filter Expr.isConst = [.const 3] ∧
      ∀ b : Bindings Float, (b.get? 'x').isSome = true → ∃ x y, e.eval b = .ok x ∧
        (Expr.max cs).eval b = .ok y ∧ Scalar.Same x y := by
  intro cs e
  have hstart (k : Extremum) : Scalar.isNaN (k.start : Float) = false := by
    cases k <;> decide +kernel
  have hfold := (extremum_folds_numbers Float hstart).2.2.2 .max cs
    (List.forall_mem_cons.mpr ⟨rfl, List.forall_mem_cons.mpr ⟨rfl,
      List.forall_mem_singleton.mpr rfl⟩⟩)
  have hargs : cs.map Expr.simplifyStep = cs := rfl
  rw [hargs] at hfold
  refine ⟨?_, fun b hb => hfold.value b ?_⟩
  · exact hfold.beside (by decide +kernel) ⟨.const 3, by simp [cs], rfl⟩ ⟨.var 'x', by simp [cs], rfl⟩
  · obtain ⟨v, hv⟩ := Option.isSome_iff_exists.mp hb
    have hx : (Expr.var 'x').eval b = .ok v := by rw [Expr.eval, hv]
    exact List.forall_mem_cons.mpr ⟨⟨3, rfl⟩, List.forall_mem_cons.mpr ⟨⟨v, hx⟩,
      List.forall_mem_singleton.mpr ⟨1, rfl⟩⟩⟩

end SymbolicAlgebra
