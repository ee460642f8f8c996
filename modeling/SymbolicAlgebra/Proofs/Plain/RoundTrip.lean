import SymbolicAlgebra.Proofs.Double.Text
import SymbolicAlgebra.Proofs.Grammar.Alike
import SymbolicAlgebra.Proofs.Grammar.Checks
import SymbolicAlgebra.Proofs.Grammar.Parse
import SymbolicAlgebra.Proofs.Plain.Render
import SymbolicAlgebra.Render.Style

/-! # Parsing plain text

Parsing undoes plain rendering, as far as plain text keeps an expression: the parsed expression is
structurally equal to what the rendered one reads back as, and so to the rendered one itself if that
is settled. -/

namespace SymbolicAlgebra.Plain

open Grammar (AllAlike Derives)

variable {α : Type} [Scalar α] [Numeral α]

theorem allAlike_bare (ts : List Token) : AllAlike ts (ts.map bare) :=
  List.forall₂_map_right_iff.mpr (List.forall₂_same.mpr fun _ _ => ⟨rfl, fun _ => rfl⟩)

/-- **A text that spells an expression parses to it.** -/
theorem Spells.parses {text : List Char} {e : Expr α} (h : Spells .sum text e) :
    (Reader.ofChars text).full.1 = .ok e := by
  obtain ⟨ts, hscan, hsum⟩ := h
  have hlexemes : lexemes text = ts := by
    have hscan := hscan [] fun _ hd => nomatch hd
    rw [List.append_nil] at hscan
    rw [hscan]
    exact List.append_nil ts
  have hderives : Derives .sum (Token.scan text) e := by
    rw [← hlexemes] at hsum
    exact hsum.congr (allAlike_bare _)
  have htokens : (Reader.ofChars text).ahead = Token.scan text := by
    rw [Reader.ofChars, hderives.dropLayout_eq, hderives.dropEmptyPairs_eq]
  refine (Grammar.full_ok_iff rfl).mpr ?_
  rw [htokens]
  exact ⟨hderives.fault?_eq_none _, hderives⟩

/-- The plain text of an expression parses to what the expression reads back as. -/
theorem plain_parses [LawfulNumeral α] {e : Expr α} (htypeable : e.Typeable)
    (hlegible : e.Legible) :
    ∃ t, (Reader.ofChars (e.render .plain).toList).full.1 = .ok t ∧ (t == e.readBack) = true := by
  obtain ⟨t, hspells, hsame⟩ := plain_spells htypeable hlegible
  exact ⟨t, hspells.parses, hsame⟩

/-- **Parsing undoes plain rendering.** If the numbers of an expression over doubles have texts that
read back, then its plain text parses, to an expression structurally equal to what it reads back as.
If its numbers are finite and not negative and its arguments in canonical order, then that is the
expression itself. -/
theorem parsing_undoes_plain {e : Expr Float} (htypeable : e.Typeable) (hlegible : e.Legible) :
    ∃ t, (Reader.ofChars (e.render .plain).toList).full.1 = .ok t ∧ (t == e.readBack) = true ∧
      (e.Settled → (t == e) = true) := by
  obtain ⟨t, hparses, hsame⟩ := plain_parses htypeable hlegible
  refine ⟨t, hparses, hsame, fun hsettled => ?_⟩
  rwa [Expr.readBack_eq_self hsettled] at hsame

/-- The text `max(-2.5,sign(x))` parses, to a maximum with its arguments the other way around. -/
theorem parsing_undoes_plain_maximum :
    let e : Expr Float := .max [.const (-2.5), .sign (.var 'x')]
    let r : Expr Float := .max [.sign (.var 'x'), .product [.const (-1), .const 2.5]]
    e.Typeable ∧ e.Legible ∧ (e.readBack == r) = true ∧
      ∃ t, (Reader.ofChars (e.render .plain).toList).full.1 = .ok t ∧
        (t == e.readBack) = true := by
  intro e r
  have htypeable : e.Typeable := by
    constructor
    · intro f as hocc
      obtain ⟨-, rfl⟩ : f = .max ∧ as = [.const (-2.5), .sign (.var 'x')] := by
        simpa [e] using hocc
      decide
    · intro c hocc
      obtain rfl : c = 'x' := by simpa [e] using hocc
      decide
  have hlegible : e.Legible := by
    intro x hocc _
    obtain rfl : x = -2.5 := by simpa [e] using hocc
    decide +kernel
  obtain ⟨t, hparses, hsame, _⟩ := parsing_undoes_plain htypeable hlegible
  exact ⟨htypeable, hlegible, by decide +kernel, t, hparses, hsame⟩

end SymbolicAlgebra.Plain
