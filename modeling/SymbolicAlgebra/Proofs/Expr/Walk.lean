import Mathlib.Data.List.Basic
import SymbolicAlgebra.Expr.Walk
import SymbolicAlgebra.Proofs.Expr.Occurs

/-! # The walk is the recursive traversal

The walk with a stack visits the nodes of an expression in the order of the recursive traversal,
children from left to right and before their parent (`spots_eq_visits`). A node on top of the stack
has its children stacked first if the walk was last outside of it, and is visited if the walk was
last at its last child. So it matters that the position last visited lies in no node that still
waits: the positions of nodes below a node end with its position. -/

namespace SymbolicAlgebra

variable {α : Type}

namespace Expr

mutual

/-- The nodes of an expression at a position: those of the arguments from left to right, and then
the expression itself. -/
def visits (position : List Nat) : Expr α → List (Spot α)
  | const x => [⟨position, const x⟩]
  | var c => [⟨position, var c⟩]
  | unary f a => visits (0 :: position) a ++ [⟨position, unary f a⟩]
  | binary f a b =>
    visits (0 :: position) a ++ visits (1 :: position) b ++ [⟨position, binary f a b⟩]
  | nary f as => visitsList position 0 as ++ [⟨position, nary f as⟩]

/-- The nodes of the arguments of a node, numbered from `i`. -/
def visitsList (position : List Nat) : Nat → List (Expr α) → List (Spot α)
  | _, [] => []
  | i, a :: as => visits (i :: position) a ++ visitsList position (i + 1) as

end

theorem visits_eq (p : List Nat) (e : Expr α) :
    visits p e = visitsList p 0 e.children ++ [⟨p, e⟩] := by
  cases e <;> simp [visits, visitsList, children]

theorem size_eq (e : Expr α) : e.size = sizeList e.children + 1 := by
  cases e <;> simp [size, sizeList, children]

end Expr

/-! ### Runs of a walk -/

namespace Walk

open SymbolicAlgebra.Expr (visits visitsList sizeList)

/-- In this many moves, the walk visits the nodes, one after the other, and becomes another walk. -/
inductive Reaches : Walk α → Nat → List (Spot α) → Walk α → Prop where
  | refl (w : Walk α) : Reaches w 0 [] w
  | visit {w w₁ w' : Walk α} {n : Nat} {s : Spot α} {ss : List (Spot α)}
    (hmove : w.step = some (some s, w₁)) (hrest : Reaches w₁ n ss w') :
    Reaches w (n + 1) (s :: ss) w'
  | stack {w w₁ w' : Walk α} {n : Nat} {ss : List (Spot α)}
    (hmove : w.step = some (none, w₁)) (hrest : Reaches w₁ n ss w') : Reaches w (n + 1) ss w'

namespace Reaches

variable {w w₁ w₂ : Walk α} {m n : Nat} {ss ts : List (Spot α)}

theorem trans (h : Reaches w m ss w₁) (h' : Reaches w₁ n ts w₂) :
    Reaches w (m + n) (ss ++ ts) w₂ := by
  induction h with
  | refl _ => rwa [Nat.zero_add]
  | visit hmove _ ih =>
    rw [Nat.add_right_comm]
    exact .visit hmove (ih h')
  | stack hmove _ ih =>
    rw [Nat.add_right_comm]
    exact .stack hmove (ih h')

/-- A run goes on from the walk that is reached. -/
theorem run_add (h : Reaches w m ss w₁) (more : Nat) :
    run (m + more) w = ss ++ run more w₁ := by
  induction h with
  | refl _ => rw [Nat.zero_add, List.nil_append]
  | visit hmove _ ih => rw [Nat.add_right_comm, run, hmove, List.cons_append, ← ih]
  | stack hmove _ ih => rw [Nat.add_right_comm, run, hmove, ← ih]

end Reaches

/-- The position last visited after some nodes. -/
def lastAfter (last : Option (List Nat)) (ss : List (Spot α)) : Option (List Nat) :=
  (ss.getLast?.map Spot.position).or last

theorem lastAfter_cons (last : Option (List Nat)) (s : Spot α) (ss : List (Spot α)) :
    lastAfter last (s :: ss) = lastAfter (some s.position) ss := by
  rw [lastAfter, lastAfter, List.getLast?_cons]
  cases ss.getLast? <;> rfl

/-- The walk was last in no node at this position or below. -/
def Outside (last : Option (List Nat)) (position : List Nat) : Prop :=
  ∀ q ∈ last, ¬position <:+ q

theorem Outside.below {last : Option (List Nat)} {p : List Nat} (h : Outside last p) (i : Nat) :
    Outside last (i :: p) :=
  fun q hq hsuffix => h q hq ((List.suffix_cons i p).trans hsuffix)

theorem outside_sibling {i j : Nat} (p : List Nat) (h : i ≠ j) :
    Outside (some (i :: p)) (j :: p) := by
  intro q hq hsuffix
  obtain rfl : i :: p = q := Option.some.inj hq
  have heq := hsuffix.eq_of_length rfl
  exact h (List.cons_eq_cons.mp heq).1.symm

theorem Outside.of_getLast? {last : Option (List Nat)} {p : List Nat} (h : Outside last p)
    {s : Spot α} : ∀ {es : List (Expr α)} {i : Nat}, (Spot.number p i es).getLast? = some s →
      last ≠ some s.position
  | e :: es, i, hs, hlast => by
    rw [Spot.number, List.getLast?_cons] at hs
    rcases hrest : (Spot.number p (i + 1) es).getLast? with _ | t
    · rw [hrest] at hs
      rw [← Option.some.inj hs] at hlast
      exact h _ hlast (List.suffix_cons i p)
    · rw [hrest] at hs
      rw [← Option.some.inj hs] at hlast
      exact h.of_getLast? hrest hlast

theorem number_eq_nil {p : List Nat} {es : List (Expr α)} {i : Nat}
    (h : (Spot.number p i es).getLast? = none) : es = [] := by
  cases es with
  | nil => rfl
  | cons e es =>
    rw [Spot.number] at h
    simp at h

/-- A node on top of the stack, if the nodes of its children are visited in turn. -/
theorem reaches_node {p : List Nat} {e : Expr α} (rest : List (Spot α)) {last : Option (List Nat)}
    (hlast : Outside last p)
    (hargs : ∃ k ≤ 2 * sizeList e.children, Reaches
      ⟨Spot.number p 0 e.children ++ ⟨p, e⟩ :: rest, last⟩ k (visitsList p 0 e.children)
      ⟨⟨p, e⟩ :: rest, lastAfter last (Spot.number p 0 e.children)⟩) :
    ∃ k ≤ 2 * e.size, Reaches ⟨⟨p, e⟩ :: rest, last⟩ k (visits p e) ⟨rest, some p⟩ := by
  rw [Expr.visits_eq, Expr.size_eq]
  rcases hchild : (Spot.number p 0 e.children).getLast? with _ | child
  · refine ⟨1, by omega, ?_⟩
    rw [number_eq_nil hchild]
    refine .visit ?_ (.refl _)
    rw [step, Spot.children, hchild]
  · obtain ⟨k, hk, hreaches⟩ := hargs
    have hfirst : Reaches ⟨⟨p, e⟩ :: rest, last⟩ 1 []
        ⟨Spot.number p 0 e.children ++ ⟨p, e⟩ :: rest, last⟩ := by
      refine .stack ?_ (.refl _)
      rw [step, Spot.children, hchild]
      simp only
      rw [if_neg (hlast.of_getLast? hchild)]
    have hlastly : Reaches ⟨⟨p, e⟩ :: rest, lastAfter last (Spot.number p 0 e.children)⟩ 1
        [⟨p, e⟩] ⟨rest, some p⟩ := by
      refine .visit ?_ (.refl _)
      rw [step, Spot.children, hchild]
      simp only
      rw [if_pos (by rw [lastAfter, hchild]; rfl)]
    exact ⟨1 + k + 1, by omega, (hfirst.trans hreaches).trans hlastly⟩

/-- **The nodes on top of the stack are visited in turn**, each after its children. The induction is
on their size, and the children of a node are smaller. -/
theorem reaches_list : ∀ (n : Nat) (es : List (Expr α)), sizeList es ≤ n →
    ∀ (p : List Nat) (i : Nat) (rest : List (Spot α)) (last : Option (List Nat)),
      (∀ j, i ≤ j → Outside last (j :: p)) →
      ∃ k ≤ 2 * sizeList es, Reaches ⟨Spot.number p i es ++ rest, last⟩ k (visitsList p i es)
        ⟨rest, lastAfter last (Spot.number p i es)⟩
  | _, [], _, p, i, rest, last, _ => ⟨0, Nat.zero_le _, .refl _⟩
  | 0, e :: es, hsize, p, i, rest, last, _ => by
    rw [sizeList, Expr.size_eq] at hsize
    omega
  | n + 1, e :: es, hsize, p, i, rest, last, hlast => by
    rw [sizeList] at hsize
    have hpos := Expr.size_eq e
    have hout := hlast i (Nat.le_refl i)
    obtain ⟨k, hk, hfirst⟩ := reaches_node (Spot.number p (i + 1) es ++ rest) hout
      (reaches_list n e.children (by omega) _ _ _ _ fun j _ => hout.below j)
    obtain ⟨m, hm, hrest⟩ := reaches_list n es (by omega) p (i + 1) rest (some (i :: p))
      fun j hj => outside_sibling p (by omega)
    refine ⟨k + m, ?_, ?_⟩
    · rw [sizeList]
      omega
    · rw [Spot.number, visitsList, lastAfter_cons]
      exact hfirst.trans hrest

/-- **The walk ends** once it has visited the nodes of the expression. -/
theorem reaches_end (e : Expr α) :
    ∃ k ≤ 2 * e.size, Reaches (start e) k (visits [] e) ⟨[], some []⟩ := by
  have hout : Outside none [] := fun _ hq => nomatch hq
  exact reaches_node [] hout
    (reaches_list _ e.children (Nat.le_refl _) _ _ _ _ fun j _ => hout.below j)

end Walk

/-! ### Expressions -/

namespace Expr

/-- **The walk is the recursive traversal**: children before parents, from left to right, and every
node once. -/
theorem spots_eq_visits (e : Expr α) : e.spots = visits [] e := by
  obtain ⟨k, hk, hreaches⟩ := Walk.reaches_end e
  have hrun := hreaches.run_add (2 * e.size - k)
  rw [Nat.add_sub_cancel' hk] at hrun
  rw [spots, hrun]
  cases 2 * e.size - k <;> simp [Walk.run, Walk.step]

mutual

theorem mem_visits {t : Expr α} : ∀ {e : Expr α} {p : List Nat},
    (∃ s ∈ visits p e, s.expr = t) ↔ Occurs t e
  | const x, p => by simp [visits, eq_comm]
  | var c, p => by simp [visits, eq_comm]
  | unary f a, p => by
    simp only [visits, List.mem_append, List.mem_singleton, or_and_right, exists_or, mem_visits,
      exists_eq_left, Occurs.unary_iff]
    rw [or_comm, eq_comm]
  | binary f a b, p => by
    simp only [visits, List.mem_append, List.mem_singleton, or_and_right, exists_or, mem_visits,
      exists_eq_left, Occurs.binary_iff]
    rw [or_comm, eq_comm]
  | nary f as, p => by
    simp only [visits, List.mem_append, List.mem_singleton, or_and_right, exists_or,
      mem_visitsList, exists_eq_left, Occurs.nary_iff]
    rw [or_comm, eq_comm]

theorem mem_visitsList {t : Expr α} : ∀ {es : List (Expr α)} {p : List Nat} {i : Nat},
    (∃ s ∈ visitsList p i es, s.expr = t) ↔ ∃ e ∈ es, Occurs t e
  | [], p, i => by simp [visitsList]
  | e :: es, p, i => by
    simp only [visitsList, List.mem_append, or_and_right, exists_or, mem_visits, mem_visitsList,
      List.mem_cons, exists_eq_left]

end

mutual

/-- The nodes are the same at any position. -/
theorem map_visits (p q : List Nat) : ∀ e : Expr α,
    (visits p e).map Spot.expr = (visits q e).map Spot.expr
  | const x => rfl
  | var c => rfl
  | unary f a => by
    rw [visits, visits, List.map_append, List.map_append, map_visits (0 :: p) (0 :: q) a]
    rfl
  | binary f a b => by
    rw [visits, visits, List.map_append, List.map_append, List.map_append, List.map_append,
      map_visits (0 :: p) (0 :: q) a, map_visits (1 :: p) (1 :: q) b]
    rfl
  | nary f as => by
    rw [visits, visits, List.map_append, List.map_append, map_visitsList p q 0 0 as]
    rfl

theorem map_visitsList (p q : List Nat) (i j : Nat) : ∀ es : List (Expr α),
    (visitsList p i es).map Spot.expr = (visitsList q j es).map Spot.expr
  | [] => rfl
  | e :: es => by
    rw [visitsList, visitsList, List.map_append, List.map_append,
      map_visits (i :: p) (j :: q) e, map_visitsList p q (i + 1) (j + 1) es]

end

theorem postOrder_eq_map (e : Expr α) (p : List Nat) :
    e.postOrder = (visits p e).map Spot.expr := by
  rw [postOrder, spots_eq_visits, map_visits [] p]

theorem flatMap_postOrder (p : List Nat) : ∀ (i : Nat) (es : List (Expr α)),
    es.flatMap postOrder = (visitsList p i es).map Spot.expr
  | _, [] => rfl
  | i, e :: es => by
    rw [List.flatMap_cons, visitsList, List.map_append, postOrder_eq_map e (i :: p),
      flatMap_postOrder p (i + 1) es]

/-- **The walk visits a node after its arguments**, which it visits from left to right. -/
theorem postOrder_eq (e : Expr α) : e.postOrder = e.children.flatMap postOrder ++ [e] := by
  rw [postOrder_eq_map e [], visits_eq, List.map_append, flatMap_postOrder [] 0]
  rfl

/-- **The walk visits the subexpressions.** -/
theorem mem_postOrder {t e : Expr α} : t ∈ e.postOrder ↔ Occurs t e := by
  rw [postOrder, spots_eq_visits, List.mem_map]
  exact mem_visits

/-- **The free variables are those that occur.** -/
theorem mem_freeVars {c : Char} {e : Expr α} : c ∈ e.freeVars ↔ Occurs (var c) e := by
  rw [freeVars, VarSet.mem_ofList, List.mem_filterMap]
  constructor
  · rintro ⟨t, ht, hvar⟩
    cases t <;> cases hvar
    exact mem_postOrder.mp ht
  · exact fun h => ⟨var c, mem_postOrder.mpr h, rfl⟩

end Expr

end SymbolicAlgebra
