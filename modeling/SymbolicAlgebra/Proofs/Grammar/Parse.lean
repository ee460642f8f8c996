import SymbolicAlgebra.Double.Instances
import SymbolicAlgebra.Proofs.Grammar.Complete

/-! # Parsing and the grammar

A whole text parses exactly if its tokens pass the checks before reading and are a sum of the
grammar, and then it parses to what the sum stands for. A row of tokens stands for one expression at
most, because the parser, being a function, reads one only. -/

namespace SymbolicAlgebra.Grammar

variable {α : Type} [Scalar α] [Numeral α]

theorem fault?_none {length : Nat} {ts : List Token} (h : Reader.fault? length ts = none) :
    Reader.operatorFault? ts = none := by
  simp only [Reader.fault?, Option.orElse_eq_orElse, Option.orElse_eq_or,
    Option.or_eq_none_iff] at h
  exact h.2.2.2

/-- The parser reads a sum that takes up all tokens. -/
theorem Derives.reads_sum {ts : List Token} {e : Expr α} (h : Derives .sum ts e) {r : Reader}
    (hr : r.ahead = ts) : Read.Reads (Read.sum r.fuel) r ts e := by
  have hstops : Stops [.plus, .minus, .times, .slash, .caret] [] := by
    intro t ht
    cases ht
  refine accepts h r.fuel r [] ?_ (by rw [hr, List.append_nil]) hstops fun _ => rfl
  rw [Reader.fuel, hr]
  omega

/-- **Tokens stand for one expression at most.** -/
theorem Derives.unique {ts : List Token} {e₁ e₂ : Expr α} (h₁ : Derives .sum ts e₁)
    (h₂ : Derives .sum ts e₂) : e₁ = e₂ := by
  obtain ⟨r₁, _, hread₁⟩ := h₁.reads_sum (r := ⟨0, [], ts, ∅⟩) rfl
  obtain ⟨r₂, _, hread₂⟩ := h₂.reads_sum (r := ⟨0, [], ts, ∅⟩) rfl
  rw [hread₁] at hread₂
  cases hread₂
  rfl

theorem toEnd_of_derives {r : Reader} {e : Expr α} (h : Derives .sum r.ahead e) :
    ∃ r', Reader.toEnd r.fuel r = .done e r' := by
  obtain ⟨r', hpass, hread⟩ := h.reads_sum rfl
  have hend : r'.ahead = [] := hpass.ahead_eq (List.append_nil _).symm
  exact ⟨r', Read.toEnd_done_iff.mpr ⟨hread, hend⟩⟩

theorem derives_of_toEnd {r r' : Reader} {e : Expr α} {fuel : Nat} (hr : Single r)
    (h : Reader.toEnd fuel r = .done e r') : Derives .sum r.ahead e := by
  obtain ⟨hread, hend⟩ := Read.toEnd_done_iff.mp h
  obtain ⟨ts, hpass, hsum⟩ := (sound fuel).sum hr hread
  rwa [hpass.ahead, hend, List.append_nil]

theorem full_ok_iff {r : Reader} {e : Expr α} (hbehind : r.behind = []) :
    r.full.1 = .ok e ↔ Reader.fault? r.length r.ahead = none ∧ Derives .sum r.ahead e := by
  have htokens : r.tokens = r.ahead := by rw [Reader.tokens, hbehind]; rfl
  rw [Reader.full, htokens]
  rcases hfault : Reader.fault? r.length r.ahead with _ | fault
  · simp only [true_and]
    constructor
    · intro h
      unfold Reader.perform at h
      split at h
      · next e' r' hread =>
        rw [← Except.ok.inj h]
        exact derives_of_toEnd (fault?_none hfault) hread
      · cases h
      · cases h
    · intro h
      obtain ⟨r', hread⟩ := toEnd_of_derives h
      rw [Reader.perform, hread]
  · simp

/-- **The parser accepts exactly its grammar.** A text parses to an expression if and only if its
tokens, without layout and empty pairs of brackets, pass the checks before reading and together
derive the expression as a sum; and they derive no other one. -/
theorem parses_iff_derives (text : List Char) :
    let tokens := Reader.dropEmptyPairs (Reader.dropLayout (Token.scan text))
    (∀ e : Expr α, (Reader.ofChars text).full.1 = .ok e ↔
      Reader.fault? (Text.bytes text) tokens = none ∧ Derives .sum tokens e) ∧
    ∀ e₁ e₂ : Expr α, Derives .sum tokens e₁ → Derives .sum tokens e₂ → e₁ = e₂ :=
  ⟨fun _ => full_ok_iff rfl, fun _ _ => Derives.unique⟩

/-- The text `-x` parses to minus `x`, and its tokens do not stand for `x`. -/
theorem parses_iff_derives_minus_x :
    (Reader.ofChars ['-', 'x']).full.1 = .ok (Expr.var 'x' : Expr Float).neg ∧
      ¬Derives .sum (Reader.ofChars ['-', 'x']).tokens (Expr.var 'x' : Expr Float) := by
  obtain ⟨hiff, hunique⟩ := parses_iff_derives (α := Float) ['-', 'x']
  have hatom : Derives .atom [⟨.name, 1, ['x']⟩] (Expr.var 'x' : Expr Float) :=
    .name rfl (.letter rfl)
  have hproduct : Derives .product [⟨.name, 1, ['x']⟩] (Expr.var 'x' : Expr Float) :=
    .product (.quotient (.power hatom)) .noFactors
  have hminus : (⟨.minus, 0, ['-']⟩ : Token).kind = .minus := rfl
  have hsum := Derives.negatedSum hminus hproduct .noTerms
  refine ⟨(hiff _).mpr ⟨by decide, hsum⟩, fun h => ?_⟩
  have hneg := hunique _ _ h hsum
  cases hneg

end SymbolicAlgebra.Grammar
