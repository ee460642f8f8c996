import SymbolicAlgebra.Proofs.Reader.Ends

/-! # What reading fails with

Some causes of faults show in a row of tokens, whatever it means: that there are no tokens, that a
bracket has no partner, that two operators stand side by side. The checks before reading look for
them, and nothing else finds them: the parser fails with other causes, on any tokens, from any place
and with any fuel (`sparing`). -/

namespace SymbolicAlgebra

/-- The causes that show in a row of tokens, whatever it means. -/
def Cause.OfRow : Cause → Prop
  | emptyExpression => True
  | unclosedBracket _ => True
  | doubledOperator _ _ => True
  | _ => False

namespace Read

variable {β γ : Type}

/-- **The action does not fail with a cause of rows**, on any reader. -/
def Spares (a : Read β) : Prop :=
  ∀ r, (a r).Ends r (fun _ _ => True) fun fault => ¬ fault.cause.OfRow

namespace Spares

theorem pure (x : β) : Spares (Pure.pure x) := fun _ => pure_ends trivial

theorem bind {a : Read β} {f : β → Read γ} (ha : a.Spares) (hf : ∀ x, (f x).Spares) :
    Spares (a >>= f) := fun r => bind_ends (ha r) fun x r' _ _ => hf x r'

theorem get_bind {f : Reader → Read γ} (hf : ∀ r, (f r).Spares) : Spares (get >>= f) :=
  fun r => get_bind_ends (hf r r)

theorem fail {fault : Fault} (h : ¬ fault.cause.OfRow) : Spares (β := β) (Read.fail fault) :=
  fun _ => fail_ends h

theorem spent : Spares (β := β) Read.spent := fun _ => trivial

theorem next : Spares next := fun _ => (next_ends fun _ => id).mono fun _ _ _ _ => trivial

theorem eat (kind : TokenKind) : Spares (eat kind) := fun _ => eat_ends kind

theorem unexpected (kinds : List TokenKind) (t : Token) :
    ¬ (Read.unexpected kinds t).cause.OfRow := by
  unfold Read.unexpected
  split_ifs <;> exact id

theorem expect (kinds : List TokenKind) : Spares (expect kinds) := fun _ =>
  (expect_ends (fun _ => id) fun t _ => unexpected kinds t).mono fun _ _ _ _ => trivial

theorem register (name : Char) : Spares (register name) := fun _ => register_ends name

section Calls
variable {α : Type} [Scalar α]

omit [Scalar α] in
theorem number [Numeral α] (t : Token) : Spares (number (α := α) t) := by
  unfold Read.number
  split
  · exact .pure _
  · exact .fail id

theorem call (f : Callable) (as : List (Expr α)) (span : Span) : Spares (call f as span) := by
  unfold Read.call
  split
  · exact .pure _
  · exact .fail id

theorem applyFront (a : Expr α) : ∀ (start : Nat) (front : List Callable),
    Spares (applyFront a start front)
  | _, [] => .pure a
  | _, f :: front => (applyFront a _ front).bind fun _ => call f _ _

end Calls

end Spares

/-- **The parser with this fuel** does not fail with a cause of rows. -/
structure Sparing (α : Type) [Scalar α] [Numeral α] (fuel : Nat) : Prop where
  sum : Spares (sum (α := α) fuel)
  terms (read : List (Expr α)) : Spares (terms fuel read)
  product : Spares (product (α := α) fuel)
  factors (read : List (Expr α)) : Spares (factors fuel read)
  quotient : Spares (quotient (α := α) fuel)
  power : Spares (power (α := α) fuel)
  atom : Spares (atom (α := α) fuel)
  group : Spares (group (α := α) fuel)
  args : Spares (args (α := α) fuel)
  moreArgs (read : List (Expr α)) : Spares (moreArgs fuel read)
  name (t : Token) : Spares (name (α := α) fuel t)
  application (f : Callable) (span : Span) : Spares (application (α := α) fuel f span)
  logarithm : Spares (logarithm (α := α) fuel)

section Steps
variable {α : Type} [Scalar α] [Numeral α] {fuel : Nat} (hs : Sparing α fuel)
include hs

theorem sum_spares : Spares (sum (α := α) (fuel + 1)) := by
  rw [sum]
  refine .bind (.eat _) fun minus => ?_
  split <;> exact hs.product.bind fun _ => hs.terms _

theorem terms_spares (read : List (Expr α)) : Spares (terms (fuel + 1) read) := by
  rw [terms]
  refine .bind (.eat _) fun plus => ?_
  split
  · exact hs.product.bind fun _ => hs.terms _
  · refine .bind (.eat _) fun minus => ?_
    split
    · exact hs.product.bind fun _ => hs.terms _
    · exact .pure _

theorem product_spares : Spares (product (α := α) (fuel + 1)) := by
  rw [product]
  exact hs.quotient.bind fun _ => hs.factors _

theorem factors_spares (read : List (Expr α)) : Spares (factors (fuel + 1) read) := by
  rw [factors]
  refine .bind (.eat _) fun times => .get_bind fun r => ?_
  split
  · exact hs.quotient.bind fun _ => hs.factors _
  · exact .pure _

theorem quotient_spares : Spares (quotient (α := α) (fuel + 1)) := by
  rw [quotient]
  refine hs.power.bind fun num => .bind (.eat _) fun slash => ?_
  split
  · exact hs.quotient.bind fun _ => .pure _
  · exact .pure _

theorem power_spares : Spares (power (α := α) (fuel + 1)) := by
  rw [power]
  refine .bind (.eat _) fun minus => ?_
  split
  · exact hs.power.bind fun _ => .pure _
  · refine hs.atom.bind fun base => .bind (.eat _) fun caret => ?_
    split
    · exact hs.power.bind fun _ => .pure _
    · exact .pure _

theorem atom_spares : Spares (atom (α := α) (fuel + 1)) := by
  rw [atom]
  refine Spares.next.bind fun t => ?_
  split
  · exact .number t
  · exact hs.name t
  · exact hs.group
  · exact .fail (Spares.unexpected _ t)

theorem group_spares : Spares (group (α := α) (fuel + 1)) := by
  rw [group]
  exact hs.sum.bind fun _ => .bind (.expect _) fun _ => .pure _

theorem args_spares : Spares (args (α := α) (fuel + 1)) := by
  rw [args]
  exact .bind (.expect _) fun _ => hs.sum.bind fun _ => hs.moreArgs _

theorem moreArgs_spares (read : List (Expr α)) : Spares (moreArgs (fuel + 1) read) := by
  rw [moreArgs]
  refine .bind (.expect _) fun t => ?_
  split
  · exact .pure _
  · exact hs.sum.bind fun _ => hs.moreArgs _

theorem name_spares (t : Token) : Spares (name (α := α) (fuel + 1) t) := by
  rw [name]
  cases (NameParts.ofName t.lexeme).tail with
  | constant c => exact .applyFront _ _ _
  | «variable» c => exact .bind (.register c) fun _ => .applyFront _ _ _
  | function f => exact (hs.application f _).bind fun _ => .applyFront _ _ _
  | unknown => exact .fail id

theorem operand_spares (f : Callable) (span : Span) : Spares (operand (α := α) fuel f span) := by
  refine .get_bind fun r => ?_
  split
  · exact hs.args.bind fun _ => .get_bind fun _ => .call f _ _
  · exact hs.atom.bind fun _ => .call f _ _

theorem application_spares (f : Callable) (span : Span) :
    Spares (application (α := α) (fuel + 1) f span) := by
  by_cases hf : f = .log
  · subst hf
    rw [application_log]
    refine .bind (.eat _) fun underscore => ?_
    split
    · exact hs.logarithm
    · exact operand_spares hs .log span
  · rw [application_eq_operand hf]
    exact operand_spares hs f span

theorem logarithm_spares : Spares (logarithm (α := α) (fuel + 1)) := by
  rw [logarithm]
  refine hs.atom.bind fun base => .bind (.eat _) fun underscore => ?_
  split
  · exact hs.atom.bind fun _ => .pure _
  · exact .bind (.expect _) fun _ => hs.group.bind fun _ => .pure _

end Steps

/-- **The parser does not fail with a cause of rows**, with any fuel. -/
theorem sparing (α : Type) [Scalar α] [Numeral α] : ∀ fuel : Nat, Sparing α fuel
  | 0 =>
    { sum := .spent
      terms := fun _ => .spent
      product := .spent
      factors := fun _ => .spent
      quotient := .spent
      power := .spent
      atom := .spent
      group := .spent
      args := .spent
      moreArgs := fun _ => .spent
      name := fun _ => .spent
      application := fun _ _ => .spent
      logarithm := .spent }
  | fuel + 1 =>
    have hs := sparing α fuel
    { sum := sum_spares hs
      terms := terms_spares hs
      product := product_spares hs
      factors := factors_spares hs
      quotient := quotient_spares hs
      power := power_spares hs
      atom := atom_spares hs
      group := group_spares hs
      args := args_spares hs
      moreArgs := moreArgs_spares hs
      name := name_spares hs
      application := application_spares hs
      logarithm := logarithm_spares hs }

end Read

end SymbolicAlgebra
