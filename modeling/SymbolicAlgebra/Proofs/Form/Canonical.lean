import SymbolicAlgebra.Proofs.Double.Order
import SymbolicAlgebra.Proofs.Form.Derivative
import SymbolicAlgebra.Proofs.Form.Reading

/-! # Canonical form everywhere

Expressions are well formed wherever they come from: from parsing, at any place in a text, and from
simplification, differentiation, negation and the builders, if what these start from is well
formed. -/

namespace SymbolicAlgebra

variable {α : Type} [Scalar α] [Numeral α]

/-! ### Parsing -/

theorem perform_eq_ok_iff {β : Type} {action : Read β} {r r' : Reader} {x : β} :
    r.perform action = (.ok x, r') ↔ action r = .done x r' := by
  unfold Reader.perform
  cases action r with
  | _ => simp

variable [OrderedScalar α]

/-- **What is parsed is gathered**, be it a sum, an atom or a group from where the reader stands, or
an expression that takes up all that is ahead. -/
theorem gathered_of_parse {r r' : Reader} {e : Expr α}
    (h : r.full = (.ok e, r') ∨ r.sum = (.ok e, r') ∨ r.atom = (.ok e, r') ∨
      r.group = (.ok e, r')) : Gathered r [e] r' := by
  rcases h with h | h | h | h
  · unfold Reader.full at h
    split at h
    · cases h
    · obtain ⟨hsum, -⟩ := Read.toEnd_done_iff.mp (perform_eq_ok_iff.mp h)
      exact (gathers r.fuel).sum (.start r) hsum
  · exact (gathers r.fuel).sum (.start r) (perform_eq_ok_iff.mp h)
  · exact (gathers r.fuel).atom (.start r) (perform_eq_ok_iff.mp h)
  · exact (gathers r.fuel).group (.start r) (perform_eq_ok_iff.mp h)

theorem gathered_of_args {r r' : Reader} {es : List (Expr α)} (h : r.args = (.ok es, r')) :
    Gathered r es r' := by
  have hargs := (gathers r.fuel).args (.start r) (perform_eq_ok_iff.mp h)
  rwa [List.append_nil] at hargs

/-- The reader of a text that has been parsed. -/
theorem gathered_of_parseChars {text : List Char} {e : Expr α} {vars : VarSet}
    (h : Expr.parseChars text = .ok (e, vars)) :
    ∃ r, Gathered (Reader.ofChars text) [e] r ∧ r.vars = vars := by
  unfold Expr.parseChars at h
  split at h
  · next e' r hfull =>
    cases h
    exact ⟨r, gathered_of_parse (.inl hfull), rfl⟩
  · cases h

/-! ### All ways to get an expression -/

/-- **Canonical form is preserved everywhere.** Every expression over doubles that is parsed is well
formed, from a whole text or from where a reader stands. From well-formed expressions, a step of
simplification, all of it, negation, successful differentiation and the builders give well-formed
expressions, and so does every task of the simplifier, whatever the depth to which its subtasks are
followed. -/
theorem wellFormed_everywhere :
    (∀ (text : String) (e : Expr Float) (vars : VarSet), Expr.parse text = .ok (e, vars) →
      e.WellFormed) ∧
    (∀ (r r' : Reader) (e : Expr Float), r.full = (.ok e, r') ∨ r.sum = (.ok e, r') ∨
      r.atom = (.ok e, r') ∨ r.group = (.ok e, r') → e.WellFormed) ∧
    (∀ (r r' : Reader) (es : List (Expr Float)), r.args = (.ok es, r') → ∀ e ∈ es, e.WellFormed) ∧
    (∀ e : Expr Float, e.WellFormed → e.simplifyStep.WellFormed ∧ e.simplify.WellFormed ∧
      e.neg.WellFormed ∧ ∀ v d, e.derivative v = .ok d → d.WellFormed) ∧
    (∀ es : List (Expr Float), (∀ e ∈ es, e.WellFormed) →
      (Expr.buildSum es).WellFormed ∧ (Expr.buildProduct es).WellFormed) ∧
    ∀ (depth : Nat) (task : Task Float) (r : Expr Float), task.Kept Expr.WellFormed →
      Simplify.solve depth task = some r → r.WellFormed := by
  have hlasting : Lasting (Expr.WellFormed (α := Float)) := lasting_wellFormed
  refine ⟨fun text e vars h => ?_, fun r r' e h => ?_, fun r r' es h => ?_, fun e he => ?_,
    fun es hes => ?_, fun depth task r htask h => ?_⟩
  · obtain ⟨r, hr, -⟩ := gathered_of_parseChars h
    exact hr.wellFormed e List.mem_cons_self
  · exact (gathered_of_parse h).wellFormed e List.mem_cons_self
  · exact (gathered_of_args h).wellFormed
  · exact ⟨hlasting.simplifyStep he, hlasting.simplify he, he.neg,
      fun v d => hlasting.derivative he⟩
  · exact ⟨hlasting.buildSum hes, hlasting.buildProduct hes⟩
  · exact Simplify.solve_kept hlasting htask h

/-- The text `y+x` parses to a sum with `y` in front. The square of the sum has a well-formed
derivative, and the product of the sum and itself is well formed. -/
theorem wellFormed_everywhere_square :
    let e : Expr Float := .sum [.var 'y', .var 'x']
    let square : Expr Float := .power e (.const 2)
    Expr.parse "y+x" = .ok (e, .ofList ['x', 'y']) ∧ e.WellFormed ∧
      (Reader.ofChars ['(', 'y', ',', 'x', ')']).args.1 =
        .ok [Expr.var 'y', (.var 'x' : Expr Float)] ∧
      (Expr.var 'x' : Expr Float).WellFormed ∧ square.simplify.WellFormed ∧
      (∃ d, square.derivative 'x' = .ok d ∧ d.WellFormed) ∧
      (Expr.buildProduct [e, e]).WellFormed ∧
      ∃ r, Simplify.solve 8 (.step square) = some r ∧ r.WellFormed := by
  intro e square
  obtain ⟨hparse, -, hargs, hother, hbuild, hsolve⟩ := wellFormed_everywhere
  have he : e.WellFormed := hparse "y+x" e _ rfl
  have hsquare : square.WellFormed := Expr.WellFormed.binary_iff.mpr ⟨he, .const 2⟩
  obtain ⟨-, hsimplify, -, hderivative⟩ := hother square hsquare
  obtain ⟨d, hd⟩ : ∃ d, square.derivative 'x' = .ok d := ⟨_, rfl⟩
  obtain ⟨r, hr⟩ : ∃ r, Simplify.solve 8 (.step square) = some r :=
    Option.isSome_iff_exists.mp rfl
  have hpair : (Reader.ofChars ['(', 'y', ',', 'x', ')']).args.1 =
      .ok [Expr.var 'y', (.var 'x' : Expr Float)] := by rfl
  have hx := hargs _ _ _ (Prod.ext hpair rfl) (.var 'x') (by simp)
  exact ⟨rfl, he, hpair, hx, hsimplify, ⟨d, hd, hderivative 'x' d hd⟩,
    (hbuild [e, e] (by simpa using he)).2, r, hr, hsolve 8 (.step square) r hsquare hr⟩

end SymbolicAlgebra
