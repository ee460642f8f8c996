import Mathlib.Order.Basic
import SymbolicAlgebra.Expr.Order

/-! # The canonical order is total

If the numbers have a sensible order, then so have the expressions: the canonical order is oriented
and transitive, and two expressions that it does not tell apart are structurally equal. The parts of
two nodes are compared only if their heads are the same, and then one after the other, so both facts
are proved for orders that are put together in this way. -/

namespace SymbolicAlgebra

/-- Numbers whose order is sensible: nothing equals what is not a number, and on all others the
order is a strict weak one with equality for its ties. -/
class OrderedScalar (α : Type) [Scalar α] : Prop where
  isNaN_of_eq {x y : α} : Scalar.eq x y = true → Scalar.isNaN x = false ∧ Scalar.isNaN y = false
  eq_iff {x y : α} : Scalar.isNaN x = false → Scalar.isNaN y = false →
    (Scalar.eq x y = true ↔ Scalar.lt x y = false ∧ Scalar.lt y x = false)
  lt_asymm {x y : α} : Scalar.isNaN x = false → Scalar.isNaN y = false → Scalar.lt x y = true →
    Scalar.lt y x = false
  lt_cotrans {x y z : α} : Scalar.isNaN x = false → Scalar.isNaN y = false →
    Scalar.isNaN z = false → Scalar.lt x z = true → Scalar.lt x y = true ∨ Scalar.lt y z = true

/-! ### Numbers -/

namespace Scalar

variable {α : Type} [Scalar α]

theorem isLE_order_iff [OrderedScalar α] {x y : α} :
    (order x y).isLE = true ↔ isNaN y = true ∨ (isNaN x = false ∧ lt y x = false) := by
  rw [order]
  rcases hx : isNaN x <;> rcases hy : isNaN y <;> simp only [Ordering.isLE] <;> try simp
  rcases hlt : lt x y
  · rcases lt y x <;> simp
  · simp [OrderedScalar.lt_asymm hx hy hlt]

instance [OrderedScalar α] : Std.TransCmp (order : α → α → Ordering) where
  eq_swap {x y} := by
    rw [order, order]
    rcases hx : isNaN x <;> rcases hy : isNaN y <;> try rfl
    simp only
    rcases hlt : lt x y
    · rcases lt y x <;> rfl
    · rw [OrderedScalar.lt_asymm hx hy hlt]
      rfl
  isLE_trans {x y z} hxy hyz := by
    rw [isLE_order_iff] at hxy hyz ⊢
    rcases hyz with hz | ⟨hy, hzy⟩
    · exact .inl hz
    · rcases hxy with hy' | ⟨hx, hyx⟩
      · rw [hy] at hy'
        cases hy'
      · rcases hz : isNaN z
        · refine .inr ⟨hx, ?_⟩
          by_contra hzx
          rcases OrderedScalar.lt_cotrans hz hy hx (Bool.not_eq_false _ ▸ hzx) with h | h
          · rw [hzy] at h
            cases h
          · rw [hyx] at h
            cases h
        · exact .inl rfl

/-- **Numbers that the order does not tell apart are the same.** -/
theorem order_eq_iff_same [OrderedScalar α] {x y : α} : order x y = .eq ↔ same x y = true := by
  have heq : isNaN x = true ∨ isNaN y = true → eq x y = false := by
    intro h
    by_contra heq
    obtain ⟨hx, hy⟩ := OrderedScalar.isNaN_of_eq (Bool.not_eq_false _ ▸ heq)
    rw [hx, hy] at h
    simp at h
  rw [order, same]
  rcases hx : isNaN x <;> rcases hy : isNaN y
  · simp only [Bool.and_false, Bool.or_false, OrderedScalar.eq_iff hx hy]
    rcases lt x y <;> rcases lt y x <;> simp
  · simp [heq (.inr hy)]
  · simp [heq (.inl hx)]
  · simp

theorem same_of_eq {x y : α} (h : eq x y = true) : same x y = true := by
  rw [same, h, Bool.true_or]

section

variable [OrderedScalar α]

theorem eq_symm {x y : α} (h : eq x y = true) : eq y x = true := by
  obtain ⟨hx, hy⟩ := OrderedScalar.isNaN_of_eq h
  rw [OrderedScalar.eq_iff hy hx]
  exact ((OrderedScalar.eq_iff hx hy).mp h).symm

theorem eq_trans {x y z : α} (h : eq x y = true) (h' : eq y z = true) : eq x z = true := by
  obtain ⟨hx, hy⟩ := OrderedScalar.isNaN_of_eq h
  obtain ⟨_, hz⟩ := OrderedScalar.isNaN_of_eq h'
  have hxz := Std.TransCmp.eq_trans (order_eq_iff_same.mpr (same_of_eq h))
    (order_eq_iff_same.mpr (same_of_eq h'))
  rw [order_eq_iff_same, same, hx, Bool.false_and, Bool.or_false] at hxz
  exact hxz

theorem lt_irrefl {x : α} (hx : isNaN x = false) : lt x x = false := by
  by_contra h
  have hlt : lt x x = true := by simpa using h
  rw [OrderedScalar.lt_asymm hx hx hlt] at hlt
  cases hlt

/-- Equal numbers are below the same numbers. -/
theorem lt_of_eq_of_lt {x y z : α} (h : eq x y = true) (hz : isNaN z = false)
    (hlt : lt x z = true) : lt y z = true := by
  obtain ⟨hx, hy⟩ := OrderedScalar.isNaN_of_eq h
  rcases OrderedScalar.lt_cotrans hx hy hz hlt with hxy | hyz
  · rw [((OrderedScalar.eq_iff hx hy).mp h).1] at hxy
    cases hxy
  · exact hyz

end

end Scalar

/-! ### Orders put together -/

/-- What the comparisons of `a` with `b`, of `b` with `c` and of `a` with `c` have to do with each
other in a transitive order. -/
structure Chained (ab bc ac : Ordering) : Prop where
  left : ab = .eq → ac = bc
  right : bc = .eq → ac = ab
  both : ab = bc → ac = ab

namespace Chained

variable {β : Type}

theorem of_transCmp (cmp : β → β → Ordering) [Std.TransCmp cmp] (a b c : β) :
    Chained (cmp a b) (cmp b c) (cmp a c) where
  left h := Std.TransCmp.congr_left h
  right h := (Std.TransCmp.congr_right h).symm
  both h := by
    rcases hab : cmp a b
    · exact Std.TransCmp.lt_trans hab (h ▸ hab)
    · exact Std.TransCmp.eq_trans hab (h ▸ hab)
    · exact Std.TransCmp.gt_trans hab (h ▸ hab)

/-- A second order decides where a first one does not. -/
theorem thenCmp {ab bc ac ab' bc' ac' : Ordering} (h : Chained ab bc ac)
    (h' : ab = .eq → bc = .eq → Chained ab' bc' ac') :
    Chained (ab.then ab') (bc.then bc') (ac.then ac') := by
  obtain ⟨hleft, hright, hboth⟩ := h
  rcases ab <;> rcases bc
  case eq.eq =>
    rw [hleft rfl]
    exact h' rfl rfl
  all_goals constructor <;> grind [Ordering.then]

theorem isLE {ab bc ac : Ordering} (h : Chained ab bc ac) (hab : ab.isLE = true)
    (hbc : bc.isLE = true) : ac.isLE = true := by
  cases ab with
  | gt => cases hab
  | eq => rwa [h.left rfl]
  | lt => cases bc with
    | gt => cases hbc
    | eq => rwa [h.right rfl]
    | lt => rwa [h.both rfl]

end Chained

namespace Expr

variable {α : Type} [Scalar α]

/-- The order of two nodes with the same head. -/
def compareParts : Expr α → Expr α → Ordering
  | const x, const y => Scalar.order x y
  | var x, var y => Ord.compare x y
  | unary _ a, unary _ b => compare a b
  | binary f a b, binary _ c d =>
    if f = .log then (compare b d).then (compare a c) else (compare a c).then (compare b d)
  | nary _ as, nary _ bs => (Ord.compare as.length bs.length).then (compareList as bs)
  | _, _ => .eq

theorem compare_eq_then (a b : Expr α) :
    compare a b = (Ord.compare a.head.priority b.head.priority).then (compareParts a b) := by
  cases a <;> cases b <;> rfl

omit [Scalar α] in
theorem head_eq_of_compare {a b : Expr α}
    (h : Ord.compare a.head.priority b.head.priority = .eq) : a.head = b.head :=
  Head.priority_injective (Nat.compare_eq_eq.mp h)

/-! ### Orientation -/

theorem compare_swap_of {a b : Expr α}
    (h : a.head = b.head → compareParts a b = (compareParts b a).swap) :
    compare a b = (compare b a).swap := by
  rw [compare_eq_then a b, compare_eq_then b a, Ordering.swap_then, ← Std.OrientedCmp.eq_swap]
  rcases hheads : Ord.compare a.head.priority b.head.priority
  · rfl
  · exact h (head_eq_of_compare hheads)
  · rfl

mutual

theorem compareParts_swap [OrderedScalar α] : ∀ (a b : Expr α), a.head = b.head →
    compareParts a b = (compareParts b a).swap
  | const x, b, h => by
    cases b with
    | const y => exact (Std.OrientedCmp.eq_swap : Scalar.order x y = (Scalar.order y x).swap)
    | _ => cases h
  | var x, b, h => by
    cases b with
    | var y => exact (Std.OrientedCmp.eq_swap : Ord.compare x y = (Ord.compare y x).swap)
    | _ => cases h
  | unary f a, b, h => by
    cases b with
    | unary g b => exact compare_swap_of (compareParts_swap a b)
    | _ => cases h
  | binary f a b, e, h => by
    cases e with
    | binary g c d =>
      cases h
      rw [compareParts, compareParts, compare_swap_of (compareParts_swap a c),
        compare_swap_of (compareParts_swap b d)]
      split <;> rw [Ordering.swap_then]
    | _ => cases h
  | nary f as, e, h => by
    cases e with
    | nary g bs =>
      rw [compareParts, compareParts, Ordering.swap_then, ← Std.OrientedCmp.eq_swap,
        compareList_swap as bs]
    | _ => cases h

theorem compareList_swap [OrderedScalar α] : ∀ (as bs : List (Expr α)),
    compareList as bs = (compareList bs as).swap
  | [], [] => rfl
  | [], _ :: _ => rfl
  | _ :: _, [] => rfl
  | a :: as, b :: bs => by
    rw [compareList, compareList, Ordering.swap_then, compare_swap_of (compareParts_swap a b),
      compareList_swap as bs]

end

/-! ### Transitivity -/

theorem compare_chained_of {a b c : Expr α}
    (h : a.head = b.head → b.head = c.head →
      Chained (compareParts a b) (compareParts b c) (compareParts a c)) :
    Chained (compare a b) (compare b c) (compare a c) := by
  rw [compare_eq_then a b, compare_eq_then b c, compare_eq_then a c]
  exact (Chained.of_transCmp Ord.compare _ _ _).thenCmp fun hab hbc =>
    h (head_eq_of_compare hab) (head_eq_of_compare hbc)

mutual

theorem compareParts_chained [OrderedScalar α] :
    ∀ (a b c : Expr α), a.head = b.head → b.head = c.head →
      Chained (compareParts a b) (compareParts b c) (compareParts a c)
  | const x, b, c, h, h' => by
    cases b with
    | const y =>
      cases c with
      | const z => exact .of_transCmp Scalar.order x y z
      | _ => cases h'
    | _ => cases h
  | var x, b, c, h, h' => by
    cases b with
    | var y =>
      cases c with
      | var z => exact .of_transCmp Ord.compare x y z
      | _ => cases h'
    | _ => cases h
  | unary f a, b, c, h, h' => by
    cases b with
    | unary g b =>
      cases c with
      | unary k c => exact compare_chained_of (compareParts_chained a b c)
      | _ => cases h'
    | _ => cases h
  | binary f a a', b, c, h, h' => by
    cases b with
    | binary g b b' =>
      cases c with
      | binary k c c' =>
        cases h
        cases h'
        have hleft := compare_chained_of (compareParts_chained a b c)
        have hright := compare_chained_of (compareParts_chained a' b' c')
        rw [compareParts, compareParts, compareParts]
        split
        · exact hright.thenCmp fun _ _ => hleft
        · exact hleft.thenCmp fun _ _ => hright
      | _ => cases h'
    | _ => cases h
  | nary f as, b, c, h, h' => by
    cases b with
    | nary g bs =>
      cases c with
      | nary k cs =>
        refine (Chained.of_transCmp Ord.compare _ _ _).thenCmp fun hab hbc => ?_
        exact compareList_chained as bs cs (Nat.compare_eq_eq.mp hab) (Nat.compare_eq_eq.mp hbc)
      | _ => cases h'
    | _ => cases h

theorem compareList_chained [OrderedScalar α] :
    ∀ (as bs cs : List (Expr α)), as.length = bs.length → bs.length = cs.length →
      Chained (compareList as bs) (compareList bs cs) (compareList as cs)
  | [], [], [], _, _ => ⟨fun _ => rfl, fun _ => rfl, fun _ => rfl⟩
  | a :: as, b :: bs, c :: cs, h, h' =>
    (compare_chained_of (compareParts_chained a b c)).thenCmp fun _ _ =>
      compareList_chained as bs cs (Nat.succ.inj h) (Nat.succ.inj h')

end

/-- **The canonical order is oriented and transitive.** -/
instance [OrderedScalar α] : Std.TransCmp (compare : Expr α → Expr α → Ordering) where
  eq_swap {a b} := compare_swap_of (compareParts_swap a b)
  isLE_trans {a b c} := (compare_chained_of (compareParts_chained a b c)).isLE

/-! ### Ties -/

theorem head_eq_of_beq {a b : Expr α} (h : beq a b = true) : a.head = b.head := by
  cases a <;> cases b <;> simp_all [beq, head]

theorem compare_eq_iff_of {a b : Expr α}
    (h : a.head = b.head → (compareParts a b = .eq ↔ beq a b = true)) :
    compare a b = .eq ↔ beq a b = true := by
  rw [compare_eq_then, Ordering.then_eq_eq]
  constructor
  · intro ⟨hheads, hparts⟩
    exact (h (head_eq_of_compare hheads)).mp hparts
  · intro hbeq
    have hheads := head_eq_of_beq hbeq
    exact ⟨Nat.compare_eq_eq.mpr (congrArg Head.priority hheads), (h hheads).mpr hbeq⟩

mutual

theorem compareParts_eq_iff [OrderedScalar α] : ∀ (a b : Expr α), a.head = b.head →
    (compareParts a b = .eq ↔ beq a b = true)
  | const x, b, h => by
    cases b with
    | const y => exact Scalar.order_eq_iff_same
    | _ => cases h
  | var x, b, h => by
    cases b with
    | var y => simp [compareParts, beq]
    | _ => cases h
  | unary f a, b, h => by
    cases b with
    | unary g b =>
      cases h
      rw [compareParts, beq, beq_self_eq_true, Bool.true_and,
        compare_eq_iff_of (compareParts_eq_iff a b)]
    | _ => cases h
  | binary f a a', b, h => by
    cases b with
    | binary g b b' =>
      cases h
      have hleft := compare_eq_iff_of (compareParts_eq_iff a b)
      have hright := compare_eq_iff_of (compareParts_eq_iff a' b')
      rw [compareParts, beq, beq_self_eq_true, Bool.true_and, Bool.and_eq_true, ← hleft, ← hright]
      split
      · rw [Ordering.then_eq_eq, and_comm]
      · rw [Ordering.then_eq_eq]
    | _ => cases h
  | nary f as, b, h => by
    cases b with
    | nary g bs =>
      cases h
      rw [compareParts, beq, beq_self_eq_true, Bool.true_and, Ordering.then_eq_eq,
        Nat.compare_eq_eq]
      exact compareList_eq_iff as bs
    | _ => cases h

theorem compareList_eq_iff [OrderedScalar α] : ∀ as bs : List (Expr α),
    (as.length = bs.length ∧ compareList as bs = .eq ↔ beqList as bs = true)
  | [], [] => by simp [compareList, beqList]
  | [], b :: bs => by simp [beqList]
  | a :: as, [] => by simp [beqList]
  | a :: as, b :: bs => by
    rw [compareList, beqList, Ordering.then_eq_eq, Bool.and_eq_true, ← compareList_eq_iff as bs,
      compare_eq_iff_of (compareParts_eq_iff a b), List.length_cons, List.length_cons,
      Nat.add_right_cancel_iff]
    exact and_left_comm

end

/-- **Expressions that the order does not tell apart are structurally equal.** -/
instance [OrderedScalar α] : Std.LawfulBEqCmp (compare : Expr α → Expr α → Ordering) where
  compare_eq_iff_beq {a b} := compare_eq_iff_of (compareParts_eq_iff a b)

end Expr

end SymbolicAlgebra
