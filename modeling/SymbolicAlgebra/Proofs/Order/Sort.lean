import Mathlib.Data.List.Forall2
import SymbolicAlgebra.Proofs.Order.Total

/-! # Sorting in the canonical order

Sorting looks at arguments up to structural equality only: arguments that are equal one by one are
still equal one by one after both lists have been sorted, and sorting two orders of the same
arguments gives lists that are equal one by one. What is sorted already stays as it is. -/

namespace SymbolicAlgebra

namespace StableSort

variable {β : Type} {before : β → β → Bool}

theorem insert_congr {R : β → β → Prop}
    (hbefore : ∀ a b a' b', R a a' → R b b' → before a b = before a' b') {x x' : β}
    (hx : R x x') : ∀ {ys ys' : List β}, List.Forall₂ R ys ys' →
      List.Forall₂ R (insert before x ys) (insert before x' ys')
  | _, _, .nil => .cons hx .nil
  | _, _, .cons hy hys => by
    rw [insert, insert, hbefore _ _ _ _ hx hy]
    split
    · exact .cons hx (.cons hy hys)
    · exact .cons hy (insert_congr hbefore hx hys)

/-- **Sorting respects a relation that the order respects.** -/
theorem sort_congr {R : β → β → Prop}
    (hbefore : ∀ a b a' b', R a a' → R b b' → before a b = before a' b') :
    ∀ {xs xs' : List β}, List.Forall₂ R xs xs' →
      List.Forall₂ R (sort before xs) (sort before xs')
  | _, _, .nil => .nil
  | _, _, .cons hx hxs => insert_congr hbefore hx (sort_congr hbefore hxs)

/-- **A sorted list stays as it is.** -/
theorem sort_eq_self : ∀ {xs : List β}, xs.Pairwise (fun a b => before a b = true) →
    sort before xs = xs
  | [], _ => rfl
  | [x], _ => rfl
  | x :: y :: ys, h => by
    obtain ⟨hx, hys⟩ := List.pairwise_cons.mp h
    have hsorted : sort before (y :: ys) = y :: ys := sort_eq_self hys
    have hfirst : before x y = true := hx y List.mem_cons_self
    rw [sort, List.foldr_cons, ← sort, hsorted, insert, if_pos hfirst]

section Sorted

variable (htotal : ∀ a b, before a b = true ∨ before b a = true)
  (htrans : ∀ a b c, before a b = true → before b c = true → before a c = true)
include htotal htrans

theorem insert_pairwise (x : β) : ∀ {ys : List β}, ys.Pairwise (fun a b => before a b = true) →
    (insert before x ys).Pairwise fun a b => before a b = true
  | [], _ => List.pairwise_singleton _ x
  | y :: ys, h => by
    obtain ⟨hy, hys⟩ := List.pairwise_cons.mp h
    rw [insert]
    split
    · next hxy =>
      refine List.pairwise_cons.mpr ⟨fun z hz => ?_, h⟩
      rcases List.mem_cons.mp hz with rfl | hz
      · exact hxy
      · exact htrans x y z hxy (hy z hz)
    · next hxy =>
      have hyx : before y x = true := (htotal x y).resolve_left hxy
      refine List.pairwise_cons.mpr ⟨fun z hz => ?_, insert_pairwise x hys⟩
      rcases List.mem_cons.mp ((insert_perm before x ys).mem_iff.mp hz) with rfl | hz
      · exact hyx
      · exact hy z hz

/-- **Sorting by a total order gives a sorted list.** -/
theorem sort_pairwise : ∀ xs : List β, (sort before xs).Pairwise fun a b => before a b = true
  | [] => .nil
  | x :: xs => insert_pairwise htotal htrans x (sort_pairwise xs)

end Sorted

/-! ### Ties -/

/-- Two elements that may stand either way. -/
def Tied (before : β → β → Bool) (x y : β) : Prop := before x y = true ∧ before y x = true

section Ties

variable (htotal : ∀ a b, before a b = true ∨ before b a = true)
  (htrans : ∀ a b c, before a b = true → before b c = true → before a c = true)
include htotal

theorem Tied.refl (x : β) : Tied before x x := (htotal x x).elim (fun h => ⟨h, h⟩) fun h => ⟨h, h⟩

theorem forall₂_tied_refl (xs : List β) : List.Forall₂ (Tied before) xs xs :=
  List.forall₂_same.mpr fun x _ => Tied.refl htotal x

/-- Of two elements in front of the same list, the one that must stand first does, whichever is
inserted last. -/
theorem insert_cons_tied {x y : β} {zs : List β} (hx : insert before x zs = x :: zs)
    (hy : insert before y zs = y :: zs) :
    List.Forall₂ (Tied before) (insert before x (y :: zs)) (insert before y (x :: zs)) := by
  rcases hxy : before x y <;> rcases hyx : before y x <;>
    simp only [insert, hxy, hyx, hx, hy, if_true, if_false, Bool.false_eq_true]
  · simpa [hxy, hyx] using htotal x y
  · exact forall₂_tied_refl htotal _
  · exact forall₂_tied_refl htotal _
  · exact .cons ⟨hxy, hyx⟩ (.cons ⟨hyx, hxy⟩ (forall₂_tied_refl htotal zs))

include htrans

theorem insert_insert_tied (x y : β) : ∀ zs : List β,
    List.Forall₂ (Tied before) (insert before x (insert before y zs))
      (insert before y (insert before x zs))
  | [] => insert_cons_tied htotal rfl rfl
  | z :: zs => by
    rcases hxz : before x z <;> rcases hyz : before y z
    · simp only [insert, hxz, hyz, if_false, Bool.false_eq_true]
      exact .cons (Tied.refl htotal z) (insert_insert_tied x y zs)
    · have hxy : before x y = false := by
        by_contra hxy
        simp [htrans x y z (by simpa using hxy) hyz] at hxz
      simp only [insert, hxz, hyz, hxy, if_true, if_false, Bool.false_eq_true]
      exact forall₂_tied_refl htotal _
    · have hyx : before y x = false := by
        by_contra hyx
        simp [htrans y x z (by simpa using hyx) hxz] at hyz
      simp only [insert, hxz, hyz, hyx, if_true, if_false, Bool.false_eq_true]
      exact forall₂_tied_refl htotal _
    · have hx : insert before x (z :: zs) = x :: z :: zs := by rw [insert, if_pos hxz]
      have hy : insert before y (z :: zs) = y :: z :: zs := by rw [insert, if_pos hyz]
      rw [hx, hy]
      exact insert_cons_tied htotal hx hy

omit htotal in
theorem Tied.trans {x y z : β} (h : Tied before x y) (h' : Tied before y z) : Tied before x z :=
  ⟨htrans x y z h.1 h'.1, htrans z y x h'.2 h.2⟩

omit htotal in
theorem forall₂_tied_trans : ∀ {xs ys zs : List β}, List.Forall₂ (Tied before) xs ys →
    List.Forall₂ (Tied before) ys zs → List.Forall₂ (Tied before) xs zs
  | _, _, _, .nil, .nil => .nil
  | _, _, _, .cons h hs, .cons h' hs' => .cons (h.trans htrans h') (forall₂_tied_trans hs hs')

omit htotal in
theorem Tied.before_eq {a b a' b' : β} (ha : Tied before a a') (hb : Tied before b b') :
    before a b = before a' b' :=
  Bool.eq_iff_iff.mpr
    ⟨fun h => htrans a' a b' ha.2 (htrans a b b' h hb.1),
      fun h => htrans a a' b ha.1 (htrans a' b' b h hb.2)⟩

/-- **Sorting looks at no order of the elements**, but for those that may stand either way. -/
theorem sort_tied_of_perm {xs ys : List β} (h : xs.Perm ys) :
    List.Forall₂ (Tied before) (sort before xs) (sort before ys) := by
  induction h with
  | nil => exact .nil
  | cons x _ ih =>
    have hx : Tied before x x := Tied.refl htotal x
    exact insert_congr (R := Tied before) (fun _ _ _ _ => Tied.before_eq htrans) hx ih
  | swap x y zs => exact insert_insert_tied htotal htrans y x (sort before zs)
  | trans _ _ ih ih' => exact forall₂_tied_trans htrans ih ih'

end Ties

end StableSort

namespace Expr

variable {α : Type} [Scalar α]

/-! ### Structural equality -/

/-- Structurally equal expressions. -/
def Same (a b : Expr α) : Prop := beq a b = true

theorem beqList_iff {as bs : List (Expr α)} :
    beqList as bs = true ↔ List.Forall₂ Same as bs := by
  induction as generalizing bs with
  | nil => cases bs <;> simp [beqList]
  | cons a as ih =>
    cases bs with
    | nil => simp [beqList]
    | cons b bs =>
      rw [beqList, Bool.and_eq_true, ih, List.forall₂_cons]
      rfl

namespace Same

theorem unary (f : Unary) {a b : Expr α} (h : Same a b) : Same (.unary f a) (.unary f b) := by
  rw [Same, beq, beq_self_eq_true, Bool.true_and]
  exact h

theorem binary (f : Binary) {a b c d : Expr α} (h : Same a c) (h' : Same b d) :
    Same (.binary f a b) (.binary f c d) := by
  rw [Same, beq, beq_self_eq_true, Bool.true_and, Bool.and_eq_true]
  exact ⟨h, h'⟩

theorem nary (f : Nary) {as bs : List (Expr α)} (h : List.Forall₂ Same as bs) :
    Same (.nary f as) (.nary f bs) := by
  rw [Same, beq, beq_self_eq_true, Bool.true_and]
  exact beqList_iff.mpr h

theorem const {x y : α} (h : Scalar.eq x y = true) : Same (.const x) (.const y) := by
  rw [Same, beq, Scalar.same, h, Bool.true_or]

theorem var (c : Char) : Same (.var c : Expr α) (.var c) := by
  rw [Same, beq, beq_self_eq_true]

variable [OrderedScalar α]

theorem iff_compare {a b : Expr α} : Same a b ↔ compare a b = .eq :=
  (compare_eq_iff_of (compareParts_eq_iff a b)).symm

theorem refl (a : Expr α) : Same a a := iff_compare.mpr Std.ReflCmp.compare_self

theorem symm {a b : Expr α} (h : Same a b) : Same b a :=
  iff_compare.mpr (Std.OrientedCmp.eq_symm (iff_compare.mp h))

theorem trans {a b c : Expr α} (h : Same a b) (h' : Same b c) : Same a c :=
  iff_compare.mpr (Std.TransCmp.eq_trans (iff_compare.mp h) (iff_compare.mp h'))

/-- **The order looks at expressions up to structural equality.** -/
theorem compare_congr {a b a' b' : Expr α} (h : Same a a') (h' : Same b b') :
    compare a b = compare a' b' :=
  (Std.TransCmp.congr_left (iff_compare.mp h)).trans
    (Std.TransCmp.congr_right (iff_compare.mp h'))

end Same

/-! ### Sorting arguments -/

/-- Arguments in the order in which a function keeps them. -/
def arrange : Nary → List (Expr α) → List (Expr α)
  | .sum, as => descending as
  | _, as => ascending as

/-- Whether one argument may stand before another one. -/
def mayPrecede : Nary → Expr α → Expr α → Bool
  | .sum, a, b => compare b a != .gt
  | _, a, b => compare a b != .gt

theorem arrange_eq_sort (f : Nary) (as : List (Expr α)) :
    arrange f as = StableSort.sort (mayPrecede f) as := by
  cases f <;> rfl

theorem arrange_perm (f : Nary) (as : List (Expr α)) : (arrange f as).Perm as := by
  rw [arrange_eq_sort]
  exact StableSort.sort_perm _ as

section Arranged

variable [OrderedScalar α]

omit [OrderedScalar α] in
theorem compare_bne_gt (a b : Expr α) : (compare a b != .gt) = (compare a b).isLE := by
  cases compare a b <;> rfl

theorem mayPrecede_total (f : Nary) (a b : Expr α) :
    mayPrecede f a b = true ∨ mayPrecede f b a = true := by
  have htotal : (compare a b).isLE = true ∨ (compare b a).isLE = true := by
    have hswap : compare b a = (compare a b).swap := Std.OrientedCmp.eq_swap
    rw [hswap]
    cases compare a b <;> simp
  cases f <;> simp only [mayPrecede, compare_bne_gt]
  case sum => exact htotal.symm
  all_goals exact htotal

theorem mayPrecede_trans (f : Nary) (a b c : Expr α) (hab : mayPrecede f a b = true)
    (hbc : mayPrecede f b c = true) : mayPrecede f a c = true := by
  cases f <;> simp only [mayPrecede, compare_bne_gt] at hab hbc ⊢
  case sum => exact Std.TransCmp.isLE_trans hbc hab
  all_goals exact Std.TransCmp.isLE_trans hab hbc

theorem same_of_tied {f : Nary} {a b : Expr α} (h : StableSort.Tied (mayPrecede f) a b) :
    Same a b := by
  have hle : (compare a b).isLE = true ∧ (compare b a).isLE = true := by
    cases f <;> simp only [StableSort.Tied, mayPrecede, compare_bne_gt] at h
    case sum => exact h.symm
    all_goals exact h
  exact Same.iff_compare.mpr (Std.OrientedCmp.isLE_antisymm hle.1 hle.2)

/-- **Arranged arguments are in canonical order.** -/
theorem arrange_pairwise (f : Nary) (as : List (Expr α)) :
    (arrange f as).Pairwise fun a b => mayPrecede f a b = true := by
  rw [arrange_eq_sort]
  exact StableSort.sort_pairwise (mayPrecede_total f) (mayPrecede_trans f) as

/-- **Arranged arguments do not tell in which order they were given.** -/
theorem arrange_perm_same (f : Nary) {as bs : List (Expr α)} (h : as.Perm bs) :
    List.Forall₂ Same (arrange f as) (arrange f bs) := by
  rw [arrange_eq_sort, arrange_eq_sort]
  have htied := StableSort.sort_tied_of_perm (mayPrecede_total f) (mayPrecede_trans f) h
  exact htied.imp fun _ _ => same_of_tied

end Arranged

/-- **Sorting respects structural equality.** -/
theorem arrange_congr [OrderedScalar α] (f : Nary) {as bs : List (Expr α)}
    (h : List.Forall₂ Same as bs) : List.Forall₂ Same (arrange f as) (arrange f bs) := by
  have hbefore : ∀ a b a' b' : Expr α, Same a a' → Same b b' →
      mayPrecede f a b = mayPrecede f a' b' := by
    intro a b a' b' ha hb
    cases f <;> simp only [mayPrecede, Same.compare_congr ha hb, Same.compare_congr hb ha]
  rw [arrange_eq_sort, arrange_eq_sort]
  exact StableSort.sort_congr hbefore h

end Expr

end SymbolicAlgebra
