import SymbolicAlgebra.Proofs.Expr.Evaluate
import SymbolicAlgebra.Proofs.Expr.Walk

/-! # Unbound variables

Evaluation recurses over an expression and stops at the first variable without a value, while the
walk over its nodes keeps a stack, and the set of its variables is built from that walk. The three
agree: evaluation ends as the nodes in the order of the walk say (`eval_ends`), so it fails with the
first unbound variable of the walk and for no other reason, and it depends on nothing but the values
of the variables in the set (`evaluation_depends_on_variables`). -/

namespace SymbolicAlgebra.Expr

variable {α : Type}

/-! ### The first unbound variable -/

/-- All variables among the expressions have a value. -/
def AllBound (b : Bindings α) (ts : List (Expr α)) : Prop :=
  ∀ c, var c ∈ ts → (b.get? c).isSome = true

/-- **The first variable among the expressions without a value.** -/
inductive FirstUnbound (b : Bindings α) : List (Expr α) → Char → Prop where
  | intro (before after : List (Expr α)) {c : Char} : AllBound b before → b.get? c = none →
    FirstUnbound b (before ++ var c :: after) c

/-- **How an evaluation ends that comes by these expressions**: well if all variables among them
have a value, and otherwise with the first one that has none. -/
inductive Ends {β : Type} (b : Bindings α) (ts : List (Expr α)) : Except Cause β → Prop where
  | ok {x : β} : AllBound b ts → Ends b ts (.ok x)
  | error {c : Char} : FirstUnbound b ts c → Ends b ts (.error (.undefinedVariable c))

variable {b b' : Bindings α} {ts us : List (Expr α)} {c c' : Char}

theorem AllBound.append (h : AllBound b ts) (h' : AllBound b us) : AllBound b (ts ++ us) :=
  fun c hc => (List.mem_append.mp hc).elim (h c) (h' c)

theorem FirstUnbound.append (h : FirstUnbound b ts c) (us : List (Expr α)) :
    FirstUnbound b (ts ++ us) c := by
  obtain ⟨before, after, hbefore, hc⟩ := h
  rw [List.append_assoc]
  exact .intro before (after ++ us) hbefore hc

theorem AllBound.firstUnbound (h : AllBound b ts) (hc : FirstUnbound b us c) :
    FirstUnbound b (ts ++ us) c := by
  obtain ⟨before, after, hbefore, hc⟩ := hc
  rw [← List.append_assoc]
  exact .intro (ts ++ before) after (h.append hbefore) hc

theorem not_allBound (hc : b.get? c = none) (before after : List (Expr α)) :
    ¬ AllBound b (before ++ var c :: after) := by
  intro hall
  have hsome := hall c (by simp)
  rw [hc] at hsome
  cases hsome

theorem FirstUnbound.not_allBound (h : FirstUnbound b ts c) : ¬ AllBound b ts := by
  obtain ⟨before, after, -, hc⟩ := h
  exact Expr.not_allBound hc before after

/-- **There is one first unbound variable at most**: of two, neither is in front of the other. -/
theorem FirstUnbound.unique (h : FirstUnbound b ts c) (h' : FirstUnbound b ts c') : c = c' := by
  obtain ⟨before, after, hbefore, hc⟩ := h
  generalize hts : before ++ var c :: after = ts at h'
  obtain ⟨before', after', hbefore', hc'⟩ := h'
  rcases List.append_eq_append_iff.mp hts with ⟨x, rfl, hrest⟩ | ⟨x, rfl, hrest⟩
  · cases x with
    | nil => exact Expr.var.inj (List.cons.inj hrest).1
    | cons y x =>
      obtain ⟨rfl, -⟩ := List.cons.inj hrest
      exact absurd hbefore' (Expr.not_allBound hc before x)
  · cases x with
    | nil => exact (Expr.var.inj (List.cons.inj hrest).1).symm
    | cons y x =>
      obtain ⟨rfl, -⟩ := List.cons.inj hrest
      exact absurd hbefore (Expr.not_allBound hc' before' x)

/-! ### Evaluation and the walk -/

namespace Ends

variable {β γ : Type}

/-- **One evaluation after another** comes by the expressions of both, and the second one matters
only if the first one ends well. -/
theorem bind {x : Except Cause β} {f : β → Except Cause γ} (h : Ends b ts x)
    (hf : ∀ v, Ends b us (f v)) : Ends b (ts ++ us) (x >>= f) := by
  cases h with
  | @ok v hts =>
    show Ends b (ts ++ us) (f v)
    have hv := hf v
    generalize f v = y at hv ⊢
    cases hv with
    | ok hus => exact .ok (hts.append hus)
    | error hc => exact .error (hts.firstUnbound hc)
  | error hc => exact .error (hc.append us)

/-- A node that is no variable. -/
theorem node {e : Expr α} (he : e.var? = none) (v : β) : Ends b [e] (.ok v) := by
  refine .ok fun c hc => ?_
  rw [← List.mem_singleton.mp hc] at he
  cases he

end Ends

variable [Scalar α]

mutual

/-- **Evaluation ends as the walk says.** By recursion over the expression: each node evaluates its
arguments from left to right, and the walk visits them so. -/
theorem eval_ends (b : Bindings α) : ∀ e : Expr α, Ends b e.postOrder (e.eval b)
  | const x => by
    rw [postOrder_eq]
    exact .node rfl x
  | var c => by
    rw [postOrder_eq, eval]
    rcases hc : b.get? c with _ | x
    · exact .error (.intro [] [] (fun _ h => by cases h) hc)
    · refine .ok fun d hd => ?_
      obtain rfl := Expr.var.inj (List.mem_singleton.mp hd)
      rw [hc]
      rfl
  | unary f a => by
    rw [postOrder_eq, eval, children, List.flatMap_singleton]
    exact (eval_ends b a).bind fun x => .node rfl _
  | binary f a c => by
    rw [postOrder_eq, eval, children, List.flatMap_cons, List.flatMap_singleton, List.append_assoc]
    exact (eval_ends b a).bind fun x => (eval_ends b c).bind fun y =>
      .node rfl _
  | nary f as => by
    rw [postOrder_eq, eval, children]
    exact (evalList_ends b as).bind fun xs => .node rfl _

theorem evalList_ends (b : Bindings α) : ∀ as : List (Expr α),
    Ends b (as.flatMap postOrder) (evalList b as)
  | [] => .ok fun _ h => by cases h
  | a :: as => by
    rw [List.flatMap_cons, evalList, ← List.append_nil (as.flatMap postOrder)]
    exact (eval_ends b a).bind fun x => (evalList_ends b as).bind fun xs =>
      .ok fun _ h => by cases h

end

mutual

/-- **Evaluation depends on the variables that occur.** -/
theorem eval_congr : ∀ {e : Expr α}, e.VarsIn (fun c => b.get? c = b'.get? c) →
    e.eval b = e.eval b'
  | const x, _ => rfl
  | var c, h => by rw [eval, eval, h c (.self _)]
  | unary f a, h => by rw [eval, eval, eval_congr (VarsIn.unary_iff.mp h)]
  | binary f a c, h => by
    obtain ⟨ha, hc⟩ := VarsIn.binary_iff.mp h
    rw [eval, eval, eval_congr ha, eval_congr hc]
  | nary f as, h => by rw [eval, eval, evalList_congr (VarsIn.nary_iff.mp h)]

theorem evalList_congr : ∀ {as : List (Expr α)},
    (∀ a ∈ as, a.VarsIn fun c => b.get? c = b'.get? c) → evalList b as = evalList b' as
  | [], _ => rfl
  | a :: as, h => by
    obtain ⟨ha, has⟩ := List.forall_mem_cons.mp h
    rw [evalList, evalList, eval_congr ha, evalList_congr has]

end

theorem eval_error_iff {e : Expr α} {cause : Cause} :
    e.eval b = .error cause ↔
      ∃ c, cause = .undefinedVariable c ∧ FirstUnbound b e.postOrder c := by
  have hends := eval_ends b e
  generalize e.eval b = result at hends
  cases hends with
  | ok hall => simpa using fun c _ hc => hc.not_allBound hall
  | error hc =>
    constructor
    · exact fun h => ⟨_, (Except.error.inj h).symm, hc⟩
    · rintro ⟨c, rfl, hc'⟩
      rw [hc.unique hc']

/-- **Evaluation fails exactly on unbound variables, and depends on the variables of the expression
alone.** It gives a number if and only if each of them has a value. Otherwise it fails, and only so:
with the variable without a value that the walk over the nodes comes to first. Bindings that give
the variables the same values, or give the same ones none, lead to the same number or fault. -/
theorem evaluation_depends_on_variables (b b' : Bindings α) (e : Expr α) :
    ((∃ x, e.eval b = .ok x) ↔ ∀ c ∈ e.freeVars, (b.get? c).isSome = true) ∧
    (∀ cause, e.eval b = .error cause ↔
      ∃ c, cause = .undefinedVariable c ∧ FirstUnbound b e.postOrder c) ∧
    ((∀ c ∈ e.freeVars, b.get? c = b'.get? c) → e.eval b = e.eval b') := by
  refine ⟨?_, fun cause => eval_error_iff, fun h => ?_⟩
  · simp only [eval_ok_iff, mem_freeVars, Bound, VarsIn]
  · exact eval_congr fun c hc => h c (mem_freeVars.mpr hc)

end SymbolicAlgebra.Expr
