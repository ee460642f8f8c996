import Mathlib.Data.List.Nodup
import SymbolicAlgebra.Proofs.Expr.Walk

/-! # The positions of a walk

A node of an expression is where a path of child numbers leads to from the root. The walk visits
every such node exactly once: it visits no position twice (`nodup_visits`), and it visits what
stands at each position and nothing else (`mem_visits_iff`). The position of a node lists its path
from the node up to the root, so the positions below a node end with its own. -/

namespace SymbolicAlgebra

variable {α : Type}

namespace Spot

theorem mem_number {p : List Nat} {s : Spot α} : ∀ {es : List (Expr α)} {i : Nat},
    s ∈ number p i es ↔ ∃ k, es[k]? = some s.expr ∧ s.position = (i + k) :: p
  | [], i => by simp [number]
  | e :: es, i => by
    rw [number, List.mem_cons, mem_number]
    constructor
    · rintro (rfl | ⟨k, hk, hs⟩)
      · exact ⟨0, rfl, rfl⟩
      · exact ⟨k + 1, hk, by rw [hs, Nat.add_right_comm, Nat.add_assoc]⟩
    · rintro ⟨_ | k, hk, hs⟩
      · obtain rfl := Option.some.inj hk
        exact .inl (by cases s; cases hs; rfl)
      · exact .inr ⟨k, hk, by rw [hs, Nat.add_right_comm, Nat.add_assoc]⟩

/-- The child nodes are where the child numbers lead to. -/
theorem mem_children {s c : Spot α} :
    c ∈ s.children ↔ ∃ i, s.expr.children[i]? = some c.expr ∧ c.position = i :: s.position := by
  simp only [children, mem_number, Nat.zero_add]

theorem pairwise_number (p : List Nat) : ∀ (es : List (Expr α)) (i : Nat),
    (number p i es).Pairwise fun s t => s.position ≠ t.position
  | [], _ => .nil
  | e :: es, i => by
    refine .cons (fun t ht => ?_) (pairwise_number p es (i + 1))
    obtain ⟨k, -, ht⟩ := mem_number.mp ht
    intro heq
    have hi : i = i + 1 + k := (List.cons.inj (heq.trans ht)).1
    omega

end Spot

namespace Expr

/-- The subexpression that a path of child numbers leads to from the root. -/
def subexpr? : List Nat → Expr α → Option (Expr α)
  | [], e => some e
  | i :: path, e => e.children[i]?.bind (subexpr? path)

theorem visitsList_eq_flatMap (p : List Nat) : ∀ (es : List (Expr α)) (i : Nat),
    visitsList p i es = (Spot.number p i es).flatMap fun s => visits s.position s.expr
  | [], _ => rfl
  | e :: es, i => by
    rw [visitsList, Spot.number, List.flatMap_cons, visitsList_eq_flatMap p es (i + 1)]

/-- A node is visited after the nodes below its children. -/
theorem visits_eq_flatMap (s : Spot α) :
    visits s.position s.expr = (s.children.flatMap fun c => visits c.position c.expr) ++ [s] := by
  rw [visits_eq, visitsList_eq_flatMap]
  rfl

/-- **The nodes visited are those that the paths lead to.** -/
theorem mem_visits_iff {t s : Spot α} : t ∈ visits s.position s.expr ↔
    ∃ path, t.position = path.reverse ++ s.position ∧ s.expr.subexpr? path = some t.expr := by
  obtain ⟨p, e⟩ := s
  induction e using induction_children generalizing p with
  | node e ih =>
    rw [visits_eq_flatMap, List.mem_append, List.mem_flatMap, List.mem_singleton]
    constructor
    · rintro (⟨c, hc, ht⟩ | rfl)
      · obtain ⟨i, hi, hposition⟩ := Spot.mem_children.mp hc
        obtain ⟨path, hpath, hexpr⟩ := (ih c.expr (List.mem_of_getElem? hi) c.position).mp ht
        refine ⟨i :: path, ?_, ?_⟩
        · rw [hpath, hposition, List.reverse_cons, List.append_assoc, List.singleton_append]
        · rw [subexpr?, hi, Option.bind_some, hexpr]
      · exact ⟨[], rfl, rfl⟩
    · rintro ⟨_ | ⟨i, path⟩, hpath, hexpr⟩
      · obtain rfl := Option.some.inj hexpr
        exact .inr (by cases t; cases hpath; rfl)
      · rw [subexpr?, Option.bind_eq_some_iff] at hexpr
        obtain ⟨a, hi, hexpr⟩ := hexpr
        refine .inl ⟨⟨i :: p, a⟩, Spot.mem_children.mpr ⟨i, hi, rfl⟩, ?_⟩
        refine (ih a (List.mem_of_getElem? hi) (i :: p)).mpr ⟨path, ?_, hexpr⟩
        rw [hpath, List.reverse_cons, List.append_assoc, List.singleton_append]

theorem position_suffix {t s : Spot α} (h : t ∈ visits s.position s.expr) :
    s.position <:+ t.position := by
  obtain ⟨path, hpath, -⟩ := mem_visits_iff.mp h
  exact ⟨path.reverse, hpath.symm⟩

/-- **No position is visited twice.** What is visited below two children differs in the number of
the child, and what is visited below a node has a longer position than the node. -/
theorem nodup_visits (s : Spot α) :
    ((visits s.position s.expr).map Spot.position).Nodup := by
  obtain ⟨p, e⟩ := s
  induction e using induction_children generalizing p with
  | node e ih =>
    rw [visits_eq_flatMap, List.map_append, List.map_flatMap, List.nodup_append]
    refine ⟨List.nodup_flatMap.mpr ⟨fun c hc => ?_, ?_⟩, List.nodup_singleton _, ?_⟩
    · obtain ⟨i, hi, -⟩ := Spot.mem_children.mp hc
      exact ih c.expr (List.mem_of_getElem? hi) c.position
    · refine List.Pairwise.imp_of_mem ?_ (Spot.pairwise_number p e.children 0)
      intro c d hc hd hne q hqc hqd
      obtain ⟨t, ht, rfl⟩ := List.mem_map.mp hqc
      obtain ⟨u, hu, heq⟩ := List.mem_map.mp hqd
      obtain ⟨i, -, hi⟩ := Spot.mem_children.mp hc
      obtain ⟨j, -, hj⟩ := Spot.mem_children.mp hd
      have hlength : c.position.length = d.position.length := by rw [hi, hj]; rfl
      have hsuffix := List.suffix_of_suffix_length_le (position_suffix ht)
        (heq ▸ position_suffix hu) (Nat.le_of_eq hlength)
      exact hne (hsuffix.eq_of_length hlength)
    · intro q hq q' hq' heq
      obtain ⟨c, hc, hq⟩ := List.mem_flatMap.mp hq
      obtain ⟨t, ht, rfl⟩ := List.mem_map.mp hq
      have hroot : q' = p := List.mem_singleton.mp hq'
      obtain ⟨i, -, hi⟩ := Spot.mem_children.mp hc
      have hle := (position_suffix ht).length_le
      rw [hi, heq, hroot] at hle
      exact Nat.not_succ_le_self _ hle

/-- **The walk with a stack is the recursive traversal.** For every expression, with any number of
children at its nodes and with equal ones among them, the walk ends, and what it has visited by then
are the nodes in the order of the recursion, which takes the children of a node from left to right
and then the node. It visits every position of the expression once, each with the subexpression that
stands there, and the root last. -/
theorem walk_is_recursive_traversal (e : Expr α) :
    (∃ moves ended, moves ≤ 2 * e.size ∧ Walk.Reaches (.start e) moves e.spots ended ∧
      ended.step = none) ∧
    e.spots = visits [] e ∧
    (e.spots.map Spot.position).Nodup ∧
    (∀ s : Spot α, s ∈ e.spots ↔ e.subexpr? s.position.reverse = some s.expr) ∧
    e.spots.getLast? = some ⟨[], e⟩ := by
  rw [spots_eq_visits]
  refine ⟨?_, rfl, nodup_visits ⟨[], e⟩, fun s => ?_, ?_⟩
  · obtain ⟨moves, hmoves, hreaches⟩ := Walk.reaches_end e
    exact ⟨moves, _, hmoves, hreaches, rfl⟩
  · rw [mem_visits_iff (s := ⟨[], e⟩)]
    constructor
    · rintro ⟨path, hpath, hexpr⟩
      rw [hpath, List.append_nil, List.reverse_reverse, hexpr]
    · exact fun h => ⟨s.position.reverse, by rw [List.reverse_reverse, List.append_nil], h⟩
  · rw [visits_eq, List.getLast?_append, List.getLast?_singleton, Option.some_or]

/-- Two equal children are two nodes. -/
example : (Expr.sum [.var 'x', .var 'x'] : Expr Unit).spots.map Spot.position = [[0], [1], []] :=
  rfl

end Expr

end SymbolicAlgebra
