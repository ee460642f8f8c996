import SymbolicAlgebra.Proofs.Congruence.Number

/-! # Minima and maxima of numbers

A minimum and a maximum are one thing with the order turned around (`Extremum`). Either is found by
going through the numbers from an infinity on and keeping the better one, or what is not a number
once there is one. What comes out is best among the numbers and the infinity (`IsBest`), and the
best of some numbers is one number only, up to sameness. So it does not matter in which order the
numbers come, or whether some of them are replaced by their own extremum first. Of the numbers no
more is assumed than that their order is sensible. -/

namespace SymbolicAlgebra

/-- A minimum or a maximum. -/
inductive Extremum where
  | min
  | max
  deriving DecidableEq, Repr

namespace Extremum

open Scalar (Same isNaN)

variable {α : Type} [Scalar α]

/-- The function of this name. -/
def node : Extremum → Nary
  | min => .min
  | max => .max

/-- The number that any other one is better than, or as good as. -/
def start : Extremum → α
  | min => Scalar.infinity
  | max => Scalar.negInfinity

/-- Whether the first number is better than the second one. -/
def beats : Extremum → α → α → Bool
  | min, x, y => Scalar.lt x y
  | max, x, y => Scalar.lt y x

/-- The better one of two numbers: the first on a tie, what is not a number if there is one. -/
def better (k : Extremum) (x y : α) : α :=
  if isNaN x then x else if isNaN y then y else if k.beats y x then y else x

theorem apply_node (k : Extremum) (xs : List α) :
    k.node.apply xs = xs.foldl k.better k.start := by
  cases k <;> rfl

/-- **The best of some numbers**: one of them that none of them beats, or not a number if one of
them is not. -/
structure IsBest (k : Extremum) (xs : List α) (m : α) : Prop where
  mem : m ∈ xs
  isNaN_iff : isNaN m = true ↔ ∃ x ∈ xs, isNaN x = true
  unbeaten : isNaN m = false → ∀ x ∈ xs, k.beats x m = false

variable {k : Extremum} {x y z a m m' : α} {xs ys : List α}

/-- Only which numbers there are matters. -/
theorem IsBest.of_mem_iff (h : k.IsBest xs m) (hmem : ∀ x, x ∈ xs ↔ x ∈ ys) : k.IsBest ys m where
  mem := (hmem m).mp h.mem
  isNaN_iff := by simp only [h.isNaN_iff, hmem]
  unbeaten hm x hx := h.unbeaten hm x ((hmem x).mpr hx)

theorem IsBest.isNaN_eq_false (h : k.IsBest xs m) (hm : isNaN m = false) (hx : x ∈ xs) :
    isNaN x = false := by
  by_contra hnan
  rw [h.isNaN_iff.mpr ⟨x, hx, Bool.not_eq_false _ ▸ hnan⟩] at hm
  cases hm

section Ordered
variable [OrderedScalar α]

theorem beats_self (hx : isNaN x = false) : k.beats x x = false := by
  cases k <;> exact Scalar.lt_irrefl hx

theorem not_beats_of_beats (hx : isNaN x = false) (hy : isNaN y = false)
    (h : k.beats x y = true) : k.beats y x = false := by
  cases k with
  | min => exact OrderedScalar.lt_asymm hx hy h
  | max => exact OrderedScalar.lt_asymm hy hx h

theorem beats_or_beats (hx : isNaN x = false) (hy : isNaN y = false) (hz : isNaN z = false)
    (h : k.beats x z = true) : k.beats x y = true ∨ k.beats y z = true := by
  cases k with
  | min => exact OrderedScalar.lt_cotrans hx hy hz h
  | max => exact (OrderedScalar.lt_cotrans hz hy hx h).symm

theorem same_of_unbeaten (hx : isNaN x = false) (hy : isNaN y = false)
    (h : k.beats x y = false) (h' : k.beats y x = false) : Same x y := by
  refine Scalar.same_of_eq ((OrderedScalar.eq_iff hx hy).mpr ?_)
  cases k with
  | min => exact ⟨h, h'⟩
  | max => exact ⟨h', h⟩

namespace IsBest

/-- **The best of some numbers is one number only.** -/
theorem same (h : k.IsBest xs m) (h' : k.IsBest xs m') : Same m m' := by
  rcases hm : isNaN m with _ | _
  · have hm' := h.isNaN_eq_false hm h'.mem
    exact same_of_unbeaten hm hm' (h'.unbeaten hm' m h.mem) (h.unbeaten hm m' h'.mem)
  · have hm' := h'.isNaN_iff.mpr (h.isNaN_iff.mp hm)
    rw [Same, Scalar.same, hm, hm', Bool.and_true, Bool.or_true]

theorem single (x : α) : k.IsBest [x] x where
  mem := List.mem_singleton_self x
  isNaN_iff := by simp
  unbeaten hx y hy := by
    rw [List.mem_singleton.mp hy]
    exact beats_self hx

theorem pair (x y : α) : k.IsBest [x, y] (k.better x y) := by
  unfold better
  split_ifs with hx hy hbeats
  · exact ⟨by simp, by simp [hx], fun h => by rw [hx] at h; cases h⟩
  · exact ⟨by simp, by simp [hy], fun h => by rw [hy] at h; cases h⟩
  · rw [Bool.not_eq_true] at hx hy
    have hxy := not_beats_of_beats hy hx hbeats
    exact ⟨by simp, by simp [hx, hy], fun _ => List.forall_mem_cons.mpr
      ⟨hxy, List.forall_mem_singleton.mpr (beats_self hy)⟩⟩
  · rw [Bool.not_eq_true] at hx hy hbeats
    exact ⟨by simp, by simp [hx, hy], fun _ => List.forall_mem_cons.mpr
      ⟨beats_self hx, List.forall_mem_singleton.mpr hbeats⟩⟩

/-- **Some of the numbers may be replaced by the best of them.** -/
theorem replace (h : k.IsBest xs a) (h' : k.IsBest (a :: ys) m) : k.IsBest (xs ++ ys) m where
  mem := by
    rcases List.mem_cons.mp h'.mem with rfl | hm
    · exact List.mem_append_left ys h.mem
    · exact List.mem_append_right xs hm
  isNaN_iff := by
    simp only [h'.isNaN_iff, List.mem_cons, List.mem_append, or_and_right, exists_or,
      exists_eq_left, h.isNaN_iff]
  unbeaten hm x hx := by
    rcases List.mem_append.mp hx with hx | hx
    · have ha := h'.isNaN_eq_false hm List.mem_cons_self
      have hxa := h.unbeaten ha x hx
      have ham := h'.unbeaten hm a List.mem_cons_self
      by_contra hbeats
      rw [Bool.not_eq_false] at hbeats
      rcases beats_or_beats (h.isNaN_eq_false ha hx) ha hm hbeats with hbeats | hbeats
      · rw [hxa] at hbeats
        cases hbeats
      · rw [ham] at hbeats
        cases hbeats
    · exact h'.unbeaten hm x (List.mem_cons_of_mem a hx)

/-- **Going through the numbers finds the best.** -/
theorem foldl : ∀ (xs : List α) (x : α), k.IsBest (x :: xs) (xs.foldl k.better x)
  | [], x => single x
  | y :: xs, x => (pair x y).replace (foldl xs (k.better x y))

end IsBest

/-! ### The functions -/

theorem isBest_apply (k : Extremum) (xs : List α) :
    k.IsBest (k.start :: xs) (k.node.apply xs) := by
  rw [apply_node]
  exact .foldl xs _

/-- **The order of the numbers does not matter.** -/
theorem apply_perm (h : xs.Perm ys) : Same (k.node.apply xs) (k.node.apply ys) :=
  ((isBest_apply k xs).of_mem_iff fun _ => (h.cons _).mem_iff).same (isBest_apply k ys)

/-- **The result is no number** if and only if one of the numbers is none. -/
theorem isNaN_apply_iff (hstart : isNaN (k.start : α) = false) :
    isNaN (k.node.apply xs) = true ↔ ∃ x ∈ xs, isNaN x = true := by
  rw [(isBest_apply k xs).isNaN_iff]
  simp [hstart]

/-- **Some of the numbers may be replaced by their own extremum.** The infinity that both start
from counts twice then. -/
theorem apply_append_apply (xs ys : List α) :
    Same (k.node.apply (xs ++ [k.node.apply ys])) (k.node.apply (xs ++ ys)) := by
  have hparts : k.IsBest (k.node.apply ys :: k.start :: xs)
      (k.node.apply (xs ++ [k.node.apply ys])) :=
    (isBest_apply k _).of_mem_iff fun x => by simp; tauto
  have hwhole : k.IsBest (k.start :: (xs ++ ys)) (k.node.apply (xs ++ [k.node.apply ys])) :=
    ((isBest_apply k ys).replace hparts).of_mem_iff fun x => by simp; tauto
  exact hwhole.same (isBest_apply k _)

end Ordered

end Extremum

end SymbolicAlgebra
