/-! # Stable sorting

Insertion sort by a Boolean "may stand before". Equal elements keep their order, and the result is
a permutation of the input. -/

namespace SymbolicAlgebra.StableSort

variable {β : Type}

/-- The list with `x` put before the first element that it may stand before. -/
def insert (before : β → β → Bool) (x : β) : List β → List β
  | [] => [x]
  | y :: ys => if before x y then x :: y :: ys else y :: insert before x ys

/-- The elements of the list, sorted; of two that may stand either way, the earlier first. -/
def sort (before : β → β → Bool) (xs : List β) : List β :=
  xs.foldr (insert before) []

theorem insert_perm (before : β → β → Bool) (x : β) :
    ∀ ys : List β, (insert before x ys).Perm (x :: ys)
  | [] => .refl _
  | y :: ys => by
    unfold insert
    split
    · exact .refl _
    · exact ((insert_perm before x ys).cons y).trans (.swap x y ys)

/-- **Sorting permutes.** -/
theorem sort_perm (before : β → β → Bool) : ∀ xs : List β, (sort before xs).Perm xs
  | [] => .refl _
  | x :: xs => (insert_perm before x _).trans ((sort_perm before xs).cons x)

theorem mem_sort {before : β → β → Bool} {xs : List β} {x : β} :
    x ∈ sort before xs ↔ x ∈ xs :=
  (sort_perm before xs).mem_iff

end SymbolicAlgebra.StableSort
