import Mathlib.Logic.Relation
import SymbolicAlgebra.Equation
import SymbolicAlgebra.Proofs.Expr.Walk
import SymbolicAlgebra.Proofs.Form.Canonical
import SymbolicAlgebra.Proofs.Plain.RoundTrip

/-! # Free variables along runs

A run goes from an equation to another one by simplifying, differentiating and parsing its own plain
text, any number of times. Along a run from a parsed equation, the free variables of each equation
are those that occur in it (`Consistent`), no step brings a new one, and the plain text always
parses: what the parser and the rules build is well formed, and variables stay letters. -/

namespace SymbolicAlgebra

open SymbolicAlgebra.Expr (Occurs WellFormed VarsIn)

/-! ### Letters -/

/-- A letter that is no constant. -/
def IsVariable (c : Char) : Prop := c.isAlpha = true ∧ c ≠ 'e'

/-- **Names of a text spell letters.** -/
theorem isVariable_of_spelled {text : List Char} {c : Char}
    (h : Spelled (Reader.ofChars text).ahead c) : IsVariable c := by
  obtain ⟨hconstant, t, ht, hname, hc⟩ := h
  refine ⟨Plain.isAlpha_of_mem_scan ((Reader.ahead_sublist text).subset ht) hname c hc, ?_⟩
  rintro rfl
  revert hconstant
  decide

namespace Equation

/-! ### Consistent equations -/

section Consistent
variable {α : Type} [Scalar α]

/-- **A well-formed equation whose free variables are those that occur in it**, all of them
letters. -/
structure Consistent (q : Equation α) : Prop where
  mem_vars (c : Char) : c ∈ q.vars ↔ Occurs (.var c) q.root
  wellFormed : q.root.WellFormed
  letters : q.root.VarsIn IsVariable

namespace Consistent

variable {q : Equation α}

theorem ofExpr {e : Expr α} (hwell : e.WellFormed) (hletters : e.VarsIn IsVariable) :
    (Equation.ofExpr e).Consistent :=
  ⟨fun _ => Expr.mem_freeVars, hwell, hletters⟩

theorem typeable (h : q.Consistent) : q.root.Typeable :=
  ⟨fun hocc => h.wellFormed.two_le_length hocc, fun hocc => h.letters _ hocc⟩

theorem varsIn (h : q.Consistent) : q.root.VarsIn (· ∈ q.vars) := fun c hc =>
  (h.mem_vars c).mpr hc

theorem evaluate_ok_iff (h : q.Consistent) (b : Bindings α) :
    (∃ x, q.evaluate b = .ok x) ↔ ∀ c ∈ q.vars, ∃ x, b.get? c = some x := by
  rw [evaluate, Expr.eval_ok_iff]
  simp only [Expr.Bound, VarsIn, ← h.mem_vars, Option.isSome_iff_exists]

end Consistent

end Consistent

section Parse
variable {α : Type} [Scalar α] [Numeral α]

theorem parse_eq_ok_iff {text : String} {q : Equation α} :
    parse text = .ok q ↔ Expr.parseChars text.toList = .ok (q.root, q.vars) := by
  rw [parse, parseChars, bind_eq_ok_iff]
  constructor
  · rintro ⟨⟨root, vars⟩, h, heq⟩
    cases heq
    exact h
  · exact fun h => ⟨_, h, rfl⟩

/-- **What is parsed is consistent.** -/
theorem consistent_of_parse [OrderedScalar α] {text : String} {q : Equation α}
    (h : parse text = .ok q) : q.Consistent := by
  obtain ⟨r, hr, hvars⟩ := gathered_of_parseChars (parse_eq_ok_iff.mp h)
  have hroot (c : Char) : (∃ e ∈ [q.root], Occurs (.var c) e) ↔ Occurs (.var c) q.root := by simp
  constructor
  · intro c
    rw [← hvars, hr.mem_vars, hroot]
    simp [Reader.ofChars]
  · exact hr.wellFormed q.root List.mem_cons_self
  · exact fun c hc => isVariable_of_spelled (hr.spelled c ((hroot c).mpr hc))

/-- The plain text of a consistent equation parses, to one with the same variables. -/
theorem Consistent.parse_plain [LawfulNumeral α] {q : Equation α} (h : q.Consistent) :
    ∃ p : Equation α, parse (q.render .plain) = .ok p ∧
      ∀ c, Occurs (.var c) p.root ↔ Occurs (.var c) q.root := by
  obtain ⟨t, hspells, hvars⟩ := Plain.plain_spells_vars h.typeable
  have hparses : (Reader.ofChars (q.render .plain).toList).full.1 = .ok t := hspells.parses
  refine ⟨⟨t, (Reader.ofChars (q.render .plain).toList).full (α := α).2.vars⟩, ?_, hvars⟩
  rw [parse_eq_ok_iff, Expr.parseChars]
  rcases hfull : (Reader.ofChars (q.render .plain).toList).full (α := α) with ⟨result, r⟩
  rw [hfull] at hparses
  rw [show result = .ok t from hparses]

end Parse

/-! ### Steps -/

section Steps
variable {α : Type} [Scalar α] [Numeral α]

/-- **One step of a run**: simplifying, differentiating or parsing the own plain text. -/
inductive Step : Equation α → Equation α → Prop where
  | simplified (q : Equation α) : Step q q.simplified
  | derivative {q d : Equation α} (v : Char) (h : q.derivative v = .ok d) : Step q d
  | reparsed {q p : Equation α} (h : parse (q.render .plain) = .ok p) : Step q p

namespace Step

variable {q p : Equation α}

/-- **A step keeps equations consistent** and brings no new variables. -/
theorem consistent [LawfulNumeral α] (h : Step q p) (hq : q.Consistent) :
    p.Consistent ∧ ∀ c ∈ p.vars, c ∈ q.vars := by
  have hwell : Lasting (WellFormed (α := α)) := lasting_wellFormed
  have hletters : Lasting (VarsIn (α := α) IsVariable) := lasting_varsIn IsVariable
  have hvars : Lasting (VarsIn (α := α) (· ∈ q.vars)) := lasting_varsIn (· ∈ q.vars)
  cases h with
  | simplified =>
    refine ⟨.ofExpr (hwell.simplify hq.wellFormed) (hletters.simplify hq.letters), fun c hc => ?_⟩
    exact hvars.simplify hq.varsIn c (Expr.mem_freeVars.mp hc)
  | derivative v h =>
    obtain ⟨d, hd, hp⟩ := bind_eq_ok_iff.mp h
    cases hp
    refine ⟨.ofExpr (hwell.simplify (hwell.derivative hq.wellFormed hd))
      (hletters.simplify (hletters.derivative hq.letters hd)), fun c hc => ?_⟩
    exact hvars.simplify (hvars.derivative hq.varsIn hd) c (Expr.mem_freeVars.mp hc)
  | reparsed h =>
    have hp := consistent_of_parse h
    obtain ⟨p', hparse, hsame⟩ := hq.parse_plain
    obtain rfl := Except.ok.inj (h.symm.trans hparse)
    refine ⟨hp, fun c hc => ?_⟩
    rw [hq.mem_vars, ← hsame, ← hp.mem_vars]
    exact hc

end Step

/-- **A run keeps equations consistent** and brings no new variables. -/
theorem consistent_of_run [LawfulNumeral α] {q p : Equation α}
    (hrun : Relation.ReflTransGen Step q p) (hq : q.Consistent) :
    p.Consistent ∧ ∀ c ∈ p.vars, c ∈ q.vars := by
  induction hrun with
  | refl => exact ⟨hq, fun _ hc => hc⟩
  | tail _ hstep ih =>
    obtain ⟨hmid, hsub⟩ := ih
    obtain ⟨hlast, hsub'⟩ := hstep.consistent hmid
    exact ⟨hlast, fun c hc => hsub c (hsub' c hc)⟩

end Steps

/-- **Runs keep the free variables right.** Whatever equation over doubles a run from a parsed one
comes to, its free variables are those that occur in it, a further step brings no new one, its plain
text parses, and it has a value exactly under the bindings that bind every free variable, so under
all that give the first equation a value. -/
theorem runs_keep_variables {text : String} {q₀ q : Equation Float}
    (hparse : parse text = .ok q₀) (hrun : Relation.ReflTransGen Step q₀ q) :
    (∀ c, c ∈ q.vars ↔ Occurs (.var c) q.root) ∧
    (∀ p, Step q p → ∀ c ∈ p.vars, c ∈ q.vars) ∧
    (∃ p : Equation Float, parse (q.render .plain) = .ok p) ∧
    (∀ b : Bindings Float, (∃ x, q.evaluate b = .ok x) ↔ ∀ c ∈ q.vars, ∃ x, b.get? c = some x) ∧
    ∀ b : Bindings Float, (∃ x, q₀.evaluate b = .ok x) → ∃ x, q.evaluate b = .ok x := by
  have hfirst := consistent_of_parse hparse
  obtain ⟨hq, hsub⟩ := consistent_of_run hrun hfirst
  refine ⟨hq.mem_vars, fun p hstep => (hstep.consistent hq).2, ?_, hq.evaluate_ok_iff,
    fun b hb => ?_⟩
  · obtain ⟨p, hp, -⟩ := hq.parse_plain
    exact ⟨p, hp⟩
  · rw [hq.evaluate_ok_iff]
    rw [hfirst.evaluate_ok_iff] at hb
    exact fun c hc => hb c (hsub c hc)

/-- From the text `x*y`, simplifying, differentiating by `x` and parsing the plain text give an
equation that has a value for `x = 2` and `y = 3`. -/
theorem runs_keep_variables_product :
    let q₀ : Equation Float := ⟨.product [.var 'x', .var 'y'], .ofList ['x', 'y']⟩
    parse "x*y" = .ok q₀ ∧ ∃ d p : Equation Float, q₀.simplified.derivative 'x' = .ok d ∧
      parse (d.render .plain) = .ok p ∧ (∀ c, c ∈ p.vars ↔ Occurs (.var c) p.root) ∧
      ∃ x, p.evaluate (.ofList [('x', 2), ('y', 3)]) = .ok x := by
  intro q₀
  have hparse : parse "x*y" = .ok q₀ := rfl
  have hok : (q₀.simplified.derivative 'x').toBool = true := by decide +kernel
  obtain ⟨d, hd⟩ : ∃ d, q₀.simplified.derivative 'x' = .ok d := by
    cases h : q₀.simplified.derivative 'x' with
    | ok d => exact ⟨d, rfl⟩
    | error cause =>
      rw [h] at hok
      cases hok
  have hrun : Relation.ReflTransGen Step q₀ d :=
    .tail (.tail .refl (.simplified q₀)) (.derivative 'x' hd)
  obtain ⟨-, -, ⟨p, hp⟩, -, -⟩ := runs_keep_variables hparse hrun
  obtain ⟨hvars, -, -, -, hvalue⟩ := runs_keep_variables hparse (hrun.tail (.reparsed hp))
  exact ⟨hparse, d, p, hd, hp, hvars, hvalue _ ⟨_, rfl⟩⟩

end Equation

end SymbolicAlgebra
