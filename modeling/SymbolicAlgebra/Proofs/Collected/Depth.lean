import Mathlib.Tactic.SplitIfs
import SymbolicAlgebra.Simplify.Solve

/-! # Depth

A rule that finds a result finds the same one with a solver that does more tasks
(`perform_persists`). So the results of the solvers of bounded depth do not depend on the depth
(`solve_unique`): it only decides whether there is one. -/

namespace SymbolicAlgebra

/-- What the first computation finds, the second one finds too. -/
def Persists {β : Type} (x y : Option β) : Prop := ∀ r, x = some r → y = some r

namespace Persists

variable {β γ : Type} {x y : Option β}

theorem refl (x : Option β) : Persists x x := fun _ h => h

theorem bind {f g : β → Option γ} (h : Persists x y) (hf : ∀ b, Persists (f b) (g b)) :
    Persists (x >>= f) (y >>= g) := by
  intro r hr
  obtain ⟨b, hb, hr⟩ := Option.bind_eq_some_iff.mp hr
  exact Option.bind_eq_some_iff.mpr ⟨b, h b hb, hf b r hr⟩

end Persists

/-- The second solver does every task that the first one does, with the same result. -/
def Solver.Grows {α : Type} (solve solve' : Solver α) : Prop :=
  ∀ task, Persists (solve task) (solve' task)

namespace Simplify

variable {α : Type} {solve solve' : Solver α} (hs : solve.Grows solve')
include hs

theorem steps_persists (es : List (Expr α)) : Persists (solve.steps es) (solve'.steps es) := by
  induction es with
  | nil => exact .refl _
  | cons e es ih => exact (hs _).bind fun _ => ih.bind fun _ => .refl _

variable [Scalar α]

/-! ### Nodes -/

theorem multiplyReciprocal_persists (a b : Expr α) :
    Persists (multiplyReciprocal solve a b) (multiplyReciprocal solve' a b) :=
  (hs _).bind fun _ => hs _

theorem divide_persists (a b : Expr α) : Persists (divide solve a b) (divide solve' a b) := by
  unfold divide
  split
  · exact (hs _).bind fun _ => (hs _).bind fun _ => (hs _).bind fun _ => (hs _).bind fun _ =>
      (hs _).bind fun _ => (hs _).bind fun _ => .refl _
  · exact (hs _).bind fun _ => (hs _).bind fun _ => (hs _).bind fun _ => .refl _
  · exact (hs _).bind fun _ => (hs _).bind fun _ => (hs _).bind fun _ => .refl _
  · split_ifs
    · exact .refl _
    · exact multiplyReciprocal_persists hs _ _
  · exact multiplyReciprocal_persists hs _ _

theorem stepFraction_persists (a b : Expr α) :
    Persists (stepFraction solve a b) (stepFraction solve' a b) :=
  (hs _).bind fun _ => (hs _).bind fun _ => divide_persists hs _ _

omit [Scalar α] in
theorem stepParts_persists (f : Binary) (a b : Expr α) :
    Persists (stepParts solve f a b) (stepParts solve' f a b) :=
  (hs _).bind fun _ => (hs _).bind fun _ => .refl _

theorem stepPower_persists (b e : Expr α) :
    Persists (stepPower solve b e) (stepPower solve' b e) := by
  unfold stepPower
  split
  · exact .refl _
  · exact (hs _).bind fun _ => .refl _
  · exact hs _
  · split
    · split_ifs
      · exact .refl _
      · exact stepParts_persists hs _ _ _
    · split
      · exact .refl _
      · exact stepParts_persists hs _ _ _
    · exact stepParts_persists hs _ _ _

theorem stepLog_persists (b a : Expr α) : Persists (stepLog solve b a) (stepLog solve' b a) := by
  unfold stepLog
  split_ifs
  · exact .refl _
  · split <;> split_ifs
    · exact .refl _
    · exact stepParts_persists hs _ _ _
    · exact .refl _
    · exact stepParts_persists hs _ _ _

omit [Scalar α] in
theorem stepArg_persists (f : Unary) (a : Expr α) :
    Persists (stepArg solve f a) (stepArg solve' f a) :=
  (hs _).bind fun _ => .refl _

theorem stepFinite_persists (f : Unary) (a : Expr α) :
    Persists (stepFinite solve f a) (stepFinite solve' f a) := by
  unfold stepFinite
  split
  · exact .refl _
  · exact stepArg_persists hs _ _

theorem stepTrig_persists (kind : Trig) (a : Expr α) :
    Persists (stepTrig solve kind a) (stepTrig solve' kind a) := by
  unfold stepTrig
  split
  · exact .refl _
  · split
    · split_ifs
      · exact hs _
      · exact stepArg_persists hs _ _
    · exact stepArg_persists hs _ _

theorem stepMod_persists (a b : Expr α) : Persists (stepMod solve a b) (stepMod solve' a b) := by
  unfold stepMod
  split
  · split
    · exact .refl _
    · exact stepParts_persists hs _ _ _
  · exact stepParts_persists hs _ _ _

theorem stepNode_persists (e : Expr α) : Persists (stepNode solve e) (stepNode solve' e) := by
  unfold stepNode
  split
  · exact .refl _
  · exact .refl _
  · exact (steps_persists hs _).bind fun _ => hs _
  · exact (steps_persists hs _).bind fun _ => hs _
  · exact (steps_persists hs _).bind fun _ => .refl _
  · exact (steps_persists hs _).bind fun _ => .refl _
  · exact stepFraction_persists hs _ _
  · exact stepPower_persists hs _ _
  · exact stepLog_persists hs _ _
  · exact stepMod_persists hs _ _
  · exact stepFinite_persists hs _ _
  · exact stepTrig_persists hs _ _
  · exact stepFinite_persists hs _ _

/-! ### Sums -/

omit [Scalar α] in
theorem toTerm_persists (g : LikeTerms α) : Persists (g.toTerm solve) (g.toTerm solve') := by
  unfold LikeTerms.toTerm
  split_ifs
  · exact hs _
  · exact .refl _

omit [Scalar α] in
theorem toTerms_persists : ∀ gs : List (LikeTerms α),
    Persists (LikeTerms.toTerms solve gs) (LikeTerms.toTerms solve' gs)
  | [] => .refl _
  | g :: gs => (toTerm_persists hs g).bind fun _ => (toTerms_persists gs).bind fun _ => .refl _

theorem addNonzero_persists (ts : List (Expr α)) :
    Persists (addNonzero solve ts) (addNonzero solve' ts) :=
  (toTerms_persists hs _).bind fun _ => (steps_persists hs _).bind fun _ => .refl _

theorem addTerms_persists (ts : List (Expr α)) :
    Persists (addTerms solve ts) (addTerms solve' ts) := by
  unfold addTerms
  split
  · exact .refl _
  · split
    · exact .refl _
    · exact .refl _
    · exact .refl _
    · exact addNonzero_persists hs _

/-! ### Products -/

theorem negateExponent_persists (e : Expr α) :
    Persists (negateExponent solve e) (negateExponent solve' e) :=
  hs _

omit hs in
mutual

theorem reciprocal_persists (hs : solve.Grows solve') :
    ∀ e : Expr α, Persists (reciprocal solve e) (reciprocal solve' e)
  | .binary .power _ e => (negateExponent_persists hs e).bind fun _ => .refl _
  | .nary .product fs => reciprocals_persists hs fs
  | .binary .fraction _ _ | .binary .log _ _ | .binary .mod _ _ => .refl _
  | .nary .sum _ | .nary .min _ | .nary .max _ => .refl _
  | .const _ | .var _ | .unary _ _ => .refl _

theorem reciprocals_persists (hs : solve.Grows solve') : ∀ es : List (Expr α),
    Persists (reciprocals solve es) (reciprocals solve' es)
  | [] => .refl _
  | e :: es => (reciprocal_persists hs e).bind fun _ => (reciprocals_persists hs es).bind fun _ =>
      .refl _

end

theorem expandFractions_persists (es : List (Expr α)) :
    Persists (expandFractions solve es) (expandFractions solve' es) := by
  fun_induction expandFractions solve es with
  | case1 => exact .refl _
  | case2 num den es ih =>
    exact (reciprocal_persists hs den).bind fun _ => ih.bind fun _ => .refl _
  | case3 e es hfraction ih =>
    rw [expandFractions.eq_3 _ _ _ hfraction]
    exact ih.bind fun _ => .refl _

omit [Scalar α] in
theorem toPowers_persists : ∀ gs : List (LikeBases α),
    Persists (LikeBases.toPowers solve gs) (LikeBases.toPowers solve' gs)
  | [] => .refl _
  | _ :: gs => (hs _).bind fun _ => (toPowers_persists gs).bind fun _ => .refl _

theorem asPowers_persists (es : List (Expr α)) :
    Persists (asPowers solve es) (asPowers solve' es) := by
  fun_induction asPowers solve es with
  | case1 => exact .refl _
  | case2 b e es ih => exact (hs _).bind fun _ => ih.bind fun _ => .refl _
  | case3 e es hpower ih =>
    rw [asPowers.eq_3 _ _ _ hpower]
    exact (hs _).bind fun _ => ih.bind fun _ => .refl _

theorem denominators_persists (es : List (Expr α)) :
    Persists (denominators solve es) (denominators solve' es) := by
  fun_induction denominators solve es with
  | case1 => exact .refl _
  | case2 b e es ih =>
    exact (negateExponent_persists hs e).bind fun _ => (hs _).bind fun _ => ih.bind fun _ =>
      .refl _
  | case3 e es hpower ih =>
    rw [denominators.eq_3 _ _ _ hpower]
    exact ih

theorem assemble_persists (es : List (Expr α)) :
    Persists (assemble solve es) (assemble solve' es) := by
  simp only [assemble]
  split_ifs
  · exact .refl _
  · exact (denominators_persists hs _).bind fun _ => (hs _).bind fun _ => .refl _
  · exact (denominators_persists hs _).bind fun _ => (hs _).bind fun _ => (hs _).bind fun _ =>
      .refl _

theorem multiplyPowers_persists (fs : List (Expr α)) :
    Persists (multiplyPowers solve fs) (multiplyPowers solve' fs) :=
  (expandFractions_persists hs fs).bind fun _ => (asPowers_persists hs _).bind fun _ =>
    (toPowers_persists hs _).bind fun _ => (steps_persists hs _).bind fun _ =>
      assemble_persists hs _

theorem multiplyFactors_persists (fs : List (Expr α)) :
    Persists (multiplyFactors solve fs) (multiplyFactors solve' fs) := by
  unfold multiplyFactors
  split
  · exact .refl _
  · split_ifs
    · exact .refl _
    · split
      · exact .refl _
      · exact .refl _
      · exact .refl _
      · simp only
        split
        · exact hs _
        · exact multiplyPowers_persists hs _

/-! ### Solvers -/

/-- **The rules do more with a solver that does more.** -/
theorem perform_persists : Solver.Grows (perform solve) (perform solve')
  | .step e => stepNode_persists hs e
  | .sum ts => addTerms_persists hs ts
  | .product fs => multiplyFactors_persists hs fs

end Simplify

namespace Simplify

variable {α : Type} [Scalar α]

theorem solve_grows : ∀ depth : Nat, (solve depth : Solver α).Grows (solve (depth + 1))
  | 0 => fun _ _ h => nomatch h
  | depth + 1 => perform_persists (solve_grows depth)

/-- **A result stays at any greater depth.** -/
theorem solve_mono {depth depth' : Nat} (hle : depth ≤ depth') {task : Task α} {r : Expr α}
    (h : solve depth task = some r) : solve depth' task = some r := by
  induction hle with
  | refl => exact h
  | step _ ih => exact solve_grows _ task r ih

/-- **A task has at most one result**, whatever the depth. -/
theorem solve_unique {depth depth' : Nat} {task : Task α} {r r' : Expr α}
    (h : solve depth task = some r) (h' : solve depth' task = some r') : r = r' := by
  rcases Nat.le_total depth depth' with hle | hle
  · exact Option.some.inj ((solve_mono hle h).symm.trans h')
  · exact Option.some.inj (h.symm.trans (solve_mono hle h'))

end Simplify

/-- The task has a result at some depth. -/
def Task.ComesTo {α : Type} [Scalar α] (task : Task α) (r : Expr α) : Prop :=
  ∃ depth, Simplify.solve depth task = some r

namespace Task.ComesTo

variable {α : Type} [Scalar α] {task : Task α} {r r' : Expr α}

theorem unique (h : task.ComesTo r) (h' : task.ComesTo r') : r = r' := by
  obtain ⟨_, h⟩ := h
  obtain ⟨_, h'⟩ := h'
  exact Simplify.solve_unique h h'

end Task.ComesTo

end SymbolicAlgebra
