import SymbolicAlgebra.Proofs.Reader.Mirror
import SymbolicAlgebra.Proofs.Reader.Operation

/-! # Reading makes progress

The parser calls itself without reading a token in between, but not for long: from a sum it comes
to an atom in five calls, and an atom reads a token or fails. So every action ends before its fuel
runs out, if it has ten for each token ahead and a few more, which depend on the action
(`progressing`). `Takes n a r` says that the action `a` ends on the reader `r`, at a later place,
and has read `n` tokens or more if it ends well.

A reader that is operated on therefore answers every time, moves forward and forgets nothing,
whatever tokens it holds, wherever it stands and whatever it was asked for before
(`reading_progresses`). -/

namespace SymbolicAlgebra

variable {β γ : Type}

/-! ### One token -/

theorem Reader.position_le (r : Reader) : r.position ≤ r.tokens.length := by
  rw [Reader.tokens, List.length_append, List.length_reverse]
  exact Nat.le_add_right _ _

/-- The reader `r'` is the reader `r` one token further. -/
structure OneFurther (r r' : Reader) : Prop extends Advances r r' where
  ahead : r.ahead.length = r'.ahead.length + 1

theorem OneFurther.pass {r : Reader} {t : Token} {ahead : List Token} (h : r.ahead = t :: ahead) :
    OneFurther r { r with behind := t :: r.behind, ahead } where
  toAdvances := .pass h
  ahead := by rw [h, List.length_cons]

theorem Advances.position_add {r r' : Reader} (h : Advances r r') :
    r'.position + r'.ahead.length = r.position + r.ahead.length := by
  simpa [Reader.tokens, Reader.position] using congrArg List.length h.tokens

theorem OneFurther.position {r r' : Reader} (h : OneFurther r r') :
    r'.position = r.position + 1 := by
  have hadd := h.toAdvances.position_add
  rw [h.ahead] at hadd
  omega

/-- An outcome on the reader that has read so many tokens or more if it is a good one. -/
def Outcome.Takes (n : Nat) (r : Reader) : Outcome β → Prop
  | .done _ r' => Advances r r' ∧ r'.ahead.length + n ≤ r.ahead.length
  | .failed _ r' => Advances r r'
  | .spent => False

/-- What an action takes on a later reader, and what had been read before. -/
theorem Outcome.Takes.after {r r₁ : Reader} {m n k : Nat} {o : Outcome β} (h : o.Takes n r₁)
    (hadvances : Advances r r₁) (hm : r₁.ahead.length + m ≤ r.ahead.length) (hk : k ≤ m + n) :
    o.Takes k r := by
  cases o with
  | done x r₂ => exact ⟨hadvances.trans h.1, by have := h.2; omega⟩
  | failed fault r₂ => exact hadvances.trans h
  | spent => exact h

namespace Read

variable {r : Reader} {m n k : Nat}

theorem next_cases (r : Reader) :
    (∃ fault, next r = .failed fault r) ∨ ∃ t r', next r = .done t r' ∧ OneFurther r r' := by
  unfold next
  split
  · next t ahead hahead => exact .inr ⟨t, _, rfl, .pass hahead⟩
  · exact .inl ⟨_, rfl⟩

theorem expect_cases (kinds : List TokenKind) (r : Reader) :
    (∃ fault, expect kinds r = .failed fault r) ∨
      ∃ t r', expect kinds r = .done t r' ∧ OneFurther r r' := by
  unfold expect
  split
  · split_ifs
    · exact next_cases r
    · exact .inl ⟨_, rfl⟩
  · exact .inl ⟨_, rfl⟩

theorem eat_cases (kind : TokenKind) (r : Reader) :
    eat kind r = .done false r ∨ ∃ r', eat kind r = .done true r' ∧ OneFurther r r' := by
  unfold eat
  split
  · next t ahead hahead =>
    split_ifs
    · exact .inr ⟨_, rfl, .pass hahead⟩
    · exact .inl rfl
  · exact .inl rfl

/-! ### Actions that take tokens -/

/-- **The action ends on the reader**, at a later place, and has read so many tokens or more if it
ends well. -/
def Takes (n : Nat) (a : Read β) (r : Reader) : Prop := (a r).Takes n r

theorem Takes.of_done {a : Read β} {x : β} {r' : Reader} (h : a r = .done x r')
    (hadvances : Advances r r') (hn : r'.ahead.length + n ≤ r.ahead.length) : Takes n a r := by
  rw [Takes, h]
  exact ⟨hadvances, hn⟩

theorem Takes.of_failed {a : Read β} {fault : Fault} {r' : Reader} (h : a r = .failed fault r')
    (hadvances : Advances r r') : Takes n a r := by
  rw [Takes, h]
  exact hadvances

theorem Takes.weaken {a : Read β} (h : Takes m a r) (hn : n ≤ m) : Takes n a r :=
  Outcome.Takes.after h (.refl r) (Nat.add_zero _).le (hn.trans (Nat.zero_add m).ge)

theorem pure_takes (x : β) : Takes 0 (pure x) r := .of_done rfl (.refl r) (Nat.le_refl _)

theorem fail_takes (fault : Fault) : Takes n (fail fault : Read β) r := .of_failed rfl (.refl r)

theorem next_takes : Takes 1 next r := by
  rcases next_cases r with ⟨fault, h⟩ | ⟨t, r', h, hfurther⟩
  · exact .of_failed h (.refl r)
  · exact .of_done h hfurther.toAdvances hfurther.ahead.ge

theorem expect_takes (kinds : List TokenKind) : Takes 1 (expect kinds) r := by
  rcases expect_cases kinds r with ⟨fault, h⟩ | ⟨t, r', h, hfurther⟩
  · exact .of_failed h (.refl r)
  · exact .of_done h hfurther.toAdvances hfurther.ahead.ge

theorem eat_takes (kind : TokenKind) : Takes 0 (eat kind) r := by
  rcases eat_cases kind r with h | ⟨r', h, hfurther⟩
  · exact .of_done h (.refl r) (Nat.le_refl _)
  · exact .of_done h hfurther.toAdvances (by rw [hfurther.ahead]; omega)

theorem register_takes (name : Char) : Takes 0 (register name) r :=
  .of_done rfl (.register name) (Nat.le_refl _)

/-- **Actions one after the other** take what both take. -/
theorem Takes.bind {a : Read β} {f : β → Read γ} (ha : Takes m a r)
    (hf : ∀ x r', r'.ahead.length + m ≤ r.ahead.length → Takes n (f x) r') (hk : k ≤ m + n) :
    Takes k (a >>= f) r := by
  show (Read.bind a f r).Takes k r
  unfold Takes at ha
  unfold Read.bind
  generalize a r = o at ha
  cases o with
  | done x r₁ => exact (hf x r₁ ha.2).after ha.1 ha.2 hk
  | failed fault r₁ => exact ha
  | spent => exact ha

/-- What depends on the next token goes on behind that token, or from the same place. -/
theorem eat_bind_takes {kind : TokenKind} {f : Bool → Read γ}
    (heaten : ∀ r', r'.ahead.length + 1 ≤ r.ahead.length → Takes n (f true) r')
    (hnot : Takes k (f false) r) (hk : k ≤ 1 + n) : Takes k (eat kind >>= f) r := by
  show (Read.bind (eat kind) f r).Takes k r
  unfold Read.bind
  rcases eat_cases kind r with h | ⟨r', h, hfurther⟩
  · rw [h]
    exact hnot
  · rw [h]
    exact (heaten r' hfurther.ahead.ge).after hfurther.toAdvances hfurther.ahead.ge hk

theorem get_bind_takes {f : Reader → Read γ} (h : Takes n (f r) r) : Takes n (get >>= f) r := h

section Calls
variable {α : Type} [Scalar α]

omit [Scalar α] in
theorem number_takes [Numeral α] (t : Token) : Takes 0 (number (α := α) t) r := by
  rw [number]
  split
  · exact pure_takes _
  · exact fail_takes _

theorem call_takes (f : Callable) (as : List (Expr α)) (span : Span) :
    Takes 0 (call f as span) r := by
  rw [call]
  split
  · exact pure_takes _
  · exact fail_takes _

theorem applyFront_takes (a : Expr α) : ∀ {front : List Callable} {start : Nat} {r : Reader},
    Takes 0 (applyFront a start front) r
  | [], _, _ => pure_takes a
  | f :: _, _, _ => (applyFront_takes a).bind (fun _ _ _ => call_takes f _ _) (Nat.le_refl _)

end Calls

end Read

/-! ### The parser -/

/-- **Actions with this fuel end**, if it is ten for each token ahead and what the action needs
until a token is read. -/
structure Progressing (α : Type) [Scalar α] [Numeral α] (fuel : Nat) : Prop where
  sum {r : Reader} : 10 * r.ahead.length + 5 ≤ fuel → Read.Takes 1 (Read.sum (α := α) fuel) r
  terms {r : Reader} {read : List (Expr α)} : 10 * r.ahead.length + 1 ≤ fuel →
    Read.Takes 0 (Read.terms fuel read) r
  product {r : Reader} : 10 * r.ahead.length + 4 ≤ fuel →
    Read.Takes 1 (Read.product (α := α) fuel) r
  factors {r : Reader} {read : List (Expr α)} : 10 * r.ahead.length + 4 ≤ fuel →
    Read.Takes 0 (Read.factors fuel read) r
  quotient {r : Reader} : 10 * r.ahead.length + 3 ≤ fuel →
    Read.Takes 1 (Read.quotient (α := α) fuel) r
  power {r : Reader} : 10 * r.ahead.length + 2 ≤ fuel → Read.Takes 1 (Read.power (α := α) fuel) r
  atom {r : Reader} : 10 * r.ahead.length + 1 ≤ fuel → Read.Takes 1 (Read.atom (α := α) fuel) r
  group {r : Reader} : 10 * r.ahead.length + 6 ≤ fuel → Read.Takes 2 (Read.group (α := α) fuel) r
  args {r : Reader} : 10 * r.ahead.length + 1 ≤ fuel → Read.Takes 3 (Read.args (α := α) fuel) r
  moreArgs {r : Reader} {read : List (Expr α)} : 10 * r.ahead.length + 1 ≤ fuel →
    Read.Takes 1 (Read.moreArgs fuel read) r
  name {r : Reader} {t : Token} : 10 * r.ahead.length + 3 ≤ fuel →
    Read.Takes 0 (Read.name (α := α) fuel t) r
  application {r : Reader} {f : Callable} {span : Span} : 10 * r.ahead.length + 2 ≤ fuel →
    Read.Takes 0 (Read.application (α := α) fuel f span) r
  logarithm {r : Reader} : 10 * r.ahead.length + 2 ≤ fuel →
    Read.Takes 0 (Read.logarithm (α := α) fuel) r

section Steps
variable {α : Type} [Scalar α] [Numeral α] {fuel : Nat} (hs : Progressing α fuel) {r : Reader}
include hs

open Read

theorem sum_takes (h : 10 * r.ahead.length + 5 ≤ fuel + 1) :
    Read.Takes 1 (Read.sum (α := α) (fuel + 1)) r := by
  rw [Read.sum]
  refine eat_bind_takes (n := 1) (fun r₁ h₁ => ?_) ?_ (by omega)
  · exact (hs.product (by omega)).bind (fun _ r₂ h₂ => hs.terms (by omega)) (Nat.le_refl _)
  · exact (hs.product (by omega)).bind (fun _ r₂ h₂ => hs.terms (by omega)) (Nat.le_refl _)

theorem terms_takes {read : List (Expr α)} (h : 10 * r.ahead.length + 1 ≤ fuel + 1) :
    Read.Takes 0 (Read.terms (fuel + 1) read) r := by
  have hterm {r₁ : Reader} {next : Expr α → List (Expr α)}
      (h₁ : r₁.ahead.length + 1 ≤ r.ahead.length) :
      Read.Takes 0 (Read.product fuel >>= fun term => Read.terms fuel (next term)) r₁ :=
    (hs.product (by omega)).bind (fun _ r₂ h₂ => hs.terms (by omega)) (Nat.zero_le _)
  rw [Read.terms]
  refine eat_bind_takes (fun r₁ h₁ => hterm h₁) ?_ (Nat.zero_le _)
  refine eat_bind_takes (fun r₁ h₁ => hterm h₁) ?_ (Nat.zero_le _)
  exact pure_takes _

theorem product_takes (h : 10 * r.ahead.length + 4 ≤ fuel + 1) :
    Read.Takes 1 (Read.product (α := α) (fuel + 1)) r := by
  rw [Read.product]
  exact (hs.quotient (by omega)).bind (fun _ r₁ h₁ => hs.factors (by omega)) (Nat.le_refl _)

/-- Between two bracketed groups a factor is read without a sign for the product. -/
theorem factors_takes {read : List (Expr α)} (h : 10 * r.ahead.length + 4 ≤ fuel + 1) :
    Read.Takes 0 (Read.factors (fuel + 1) read) r := by
  rw [Read.factors]
  have hfactor {r₁ : Reader} (h₁ : 10 * r₁.ahead.length + 4 ≤ fuel + 1) :
      Read.Takes 0 (Read.quotient fuel >>= fun factor => Read.factors fuel (factor :: read)) r₁ :=
    (hs.quotient (by omega)).bind (fun _ r₂ h₂ => hs.factors (by omega)) (Nat.zero_le _)
  refine eat_bind_takes (n := 0) (fun r₁ h₁ => get_bind_takes ?_) (get_bind_takes ?_)
    (Nat.zero_le _)
  · exact hfactor (by omega)
  · split_ifs
    · exact hfactor h
    · exact pure_takes _

theorem quotient_takes (h : 10 * r.ahead.length + 3 ≤ fuel + 1) :
    Read.Takes 1 (Read.quotient (α := α) (fuel + 1)) r := by
  rw [Read.quotient]
  refine (hs.power (by omega)).bind (n := 0) (fun _ r₁ h₁ => ?_) (Nat.le_refl _)
  refine eat_bind_takes (n := 0) (fun r₂ h₂ => ?_) (pure_takes _) (Nat.zero_le _)
  exact (hs.quotient (by omega)).bind (fun _ _ _ => pure_takes _) (Nat.zero_le _)

theorem power_takes (h : 10 * r.ahead.length + 2 ≤ fuel + 1) :
    Read.Takes 1 (Read.power (α := α) (fuel + 1)) r := by
  rw [Read.power]
  refine eat_bind_takes (n := 0) (fun r₁ h₁ => ?_) ?_ (Nat.le_refl _)
  · exact (hs.power (by omega)).bind (fun _ _ _ => pure_takes _) (Nat.zero_le _)
  · refine (hs.atom (by omega)).bind (n := 0) (fun _ r₁ h₁ => ?_) (Nat.le_refl _)
    refine eat_bind_takes (n := 0) (fun r₂ h₂ => ?_) (pure_takes _) (Nat.zero_le _)
    exact (hs.power (by omega)).bind (fun _ _ _ => pure_takes _) (Nat.zero_le _)

theorem atom_takes (h : 10 * r.ahead.length + 1 ≤ fuel + 1) :
    Read.Takes 1 (Read.atom (α := α) (fuel + 1)) r := by
  rw [Read.atom]
  refine next_takes.bind (n := 0) (fun t r₁ h₁ => ?_) (Nat.le_refl _)
  split
  · exact number_takes t
  · exact hs.name (by omega)
  · exact (hs.group (by omega)).weaken (Nat.zero_le _)
  · exact fail_takes _

theorem group_takes (h : 10 * r.ahead.length + 6 ≤ fuel + 1) :
    Read.Takes 2 (Read.group (α := α) (fuel + 1)) r := by
  rw [Read.group]
  refine (hs.sum (by omega)).bind (n := 1) (fun _ r₁ h₁ => ?_) (Nat.le_refl _)
  exact (expect_takes _).bind (fun _ _ _ => pure_takes _) (Nat.le_refl _)

theorem args_takes (h : 10 * r.ahead.length + 1 ≤ fuel + 1) :
    Read.Takes 3 (Read.args (α := α) (fuel + 1)) r := by
  rw [Read.args]
  refine (expect_takes _).bind (n := 2) (fun _ r₁ h₁ => ?_) (Nat.le_refl _)
  exact (hs.sum (by omega)).bind (fun _ r₂ h₂ => hs.moreArgs (by omega)) (Nat.le_refl _)

theorem moreArgs_takes {read : List (Expr α)} (h : 10 * r.ahead.length + 1 ≤ fuel + 1) :
    Read.Takes 1 (Read.moreArgs (fuel + 1) read) r := by
  rw [Read.moreArgs]
  refine (expect_takes _).bind (n := 0) (fun t r₁ h₁ => ?_) (Nat.le_refl _)
  split_ifs
  · exact pure_takes _
  · exact (hs.sum (by omega)).bind (fun _ r₂ h₂ => hs.moreArgs (by omega)) (Nat.zero_le _)

theorem name_takes {t : Token} (h : 10 * r.ahead.length + 3 ≤ fuel + 1) :
    Read.Takes 0 (Read.name (α := α) (fuel + 1) t) r := by
  rw [Read.name]
  cases (NameParts.ofName t.lexeme).tail with
  | constant c => exact applyFront_takes _
  | «variable» c => exact (register_takes c).bind (fun _ _ _ => applyFront_takes _) (Nat.le_refl _)
  | function f =>
    exact (hs.application (by omega)).bind (fun _ _ _ => applyFront_takes _) (Nat.le_refl _)
  | unknown => exact fail_takes _

theorem operand_takes {f : Callable} {span : Span} (h : 10 * r.ahead.length + 2 ≤ fuel + 1) :
    Read.Takes 0 (Read.operand (α := α) fuel f span) r := by
  refine get_bind_takes ?_
  split_ifs
  · refine (hs.args (by omega)).bind (n := 0) (fun _ r₁ h₁ => get_bind_takes ?_) (Nat.zero_le _)
    exact call_takes _ _ _
  · exact (hs.atom (by omega)).bind (fun _ _ _ => call_takes _ _ _) (Nat.zero_le _)

theorem application_takes {f : Callable} {span : Span} (h : 10 * r.ahead.length + 2 ≤ fuel + 1) :
    Read.Takes 0 (Read.application (α := α) (fuel + 1) f span) r := by
  by_cases hf : f = .log
  · subst hf
    rw [Read.application_log]
    refine eat_bind_takes (n := 0) (fun r₁ h₁ => ?_) (operand_takes hs h) (Nat.zero_le _)
    exact hs.logarithm (by omega)
  · rw [Read.application_eq_operand hf]
    exact operand_takes hs h

theorem logarithm_takes (h : 10 * r.ahead.length + 2 ≤ fuel + 1) :
    Read.Takes 0 (Read.logarithm (α := α) (fuel + 1)) r := by
  rw [Read.logarithm]
  refine (hs.atom (by omega)).bind (n := 0) (fun _ r₁ h₁ => ?_) (Nat.zero_le _)
  refine eat_bind_takes (n := 0) (fun r₂ h₂ => ?_) ?_ (Nat.zero_le _)
  · exact (hs.atom (by omega)).bind (fun _ _ _ => pure_takes _) (Nat.zero_le _)
  · refine (expect_takes _).bind (n := 0) (fun _ r₂ h₂ => ?_) (Nat.zero_le _)
    exact (hs.group (by omega)).bind (fun _ _ _ => pure_takes _) (Nat.zero_le _)

end Steps

/-- **The parser ends** with this fuel. -/
theorem progressing (α : Type) [Scalar α] [Numeral α] : ∀ fuel : Nat, Progressing α fuel
  | 0 =>
    { sum := fun h => absurd h (by omega)
      terms := fun h => absurd h (by omega)
      product := fun h => absurd h (by omega)
      factors := fun h => absurd h (by omega)
      quotient := fun h => absurd h (by omega)
      power := fun h => absurd h (by omega)
      atom := fun h => absurd h (by omega)
      group := fun h => absurd h (by omega)
      args := fun h => absurd h (by omega)
      moreArgs := fun h => absurd h (by omega)
      name := fun h => absurd h (by omega)
      application := fun h => absurd h (by omega)
      logarithm := fun h => absurd h (by omega) }
  | fuel + 1 =>
    have hs := progressing α fuel
    { sum := sum_takes hs
      terms := terms_takes hs
      product := product_takes hs
      factors := factors_takes hs
      quotient := quotient_takes hs
      power := power_takes hs
      atom := atom_takes hs
      group := group_takes hs
      args := args_takes hs
      moreArgs := moreArgs_takes hs
      name := name_takes hs
      application := application_takes hs
      logarithm := logarithm_takes hs }

/-! ### Reading to the end -/

namespace Reader

variable (α : Type) [Scalar α] [Numeral α]

/-- Checks all tokens. -/
def check : Read Unit := fun r =>
  match fault? r.length r.tokens with
  | some fault => .failed fault r
  | none => .done () r

theorem check_takes {r : Reader} : Read.Takes 0 check r := by
  unfold Read.Takes check
  split
  · exact .refl r
  · exact ⟨.refl r, Nat.le_refl _⟩

theorem toEnd_takes {fuel : Nat} {r : Reader} (h : 10 * r.ahead.length + 5 ≤ fuel) :
    Read.Takes 1 (toEnd (α := α) fuel) r := by
  refine ((progressing α fuel).sum h).bind (n := 0) (fun e r' _ => Read.get_bind_takes ?_)
    (Nat.le_refl _)
  generalize r'.peek? = next
  cases next with
  | none => exact Read.pure_takes e
  | some kind => exact .of_failed rfl (.refl r')

/-- Checks all tokens, then reads to the end. -/
def checkedToEnd (fuel : Nat) : Read (Expr α) := do
  check
  toEnd fuel

theorem checkedToEnd_takes {fuel : Nat} {r : Reader} (h : 10 * r.ahead.length + 5 ≤ fuel) :
    Read.Takes 1 (checkedToEnd α fuel) r :=
  Read.Takes.bind check_takes (fun _ r' _ => toEnd_takes α (by omega)) (Nat.zero_add 1).ge

variable {α} in
theorem checkedToEnd_of_fault {fuel : Nat} {r : Reader} {fault : Fault}
    (h : fault? r.length r.tokens = some fault) : checkedToEnd α fuel r = .failed fault r := by
  show Read.bind check (fun _ => toEnd fuel) r = _
  simp [Read.bind, check, h]

variable {α} in
theorem checkedToEnd_of_none {fuel : Nat} {r : Reader} (h : fault? r.length r.tokens = none) :
    checkedToEnd α fuel r = toEnd fuel r := by
  show Read.bind check (fun _ => toEnd fuel) r = _
  simp [Read.bind, check, h]

theorem full_eq (r : Reader) : r.full = r.perform (checkedToEnd α r.fuel) := by
  show _ = r.perform (Read.bind check fun _ => toEnd r.fuel)
  unfold full Reader.perform Read.bind check
  cases fault? r.length r.tokens <;> rfl

end Reader

/-! ### Operations -/

/-- The action, with no value but that it ended well. -/
def Read.ended (a : Read β) : Read Bool := do
  let _ ← a
  pure true

namespace Read

variable {a : Read β} {r : Reader} {n : Nat}

theorem ended_eq (a : Read β) (r : Reader) : a.ended r =
    match a r with
    | .done _ r' => .done true r'
    | .failed fault r' => .failed fault r'
    | .spent => .spent := rfl

theorem ended_congr {b : Read β} (h : a.ended r ≠ .spent) (hab : a r ≠ .spent → a r = b r) :
    b.ended r = a.ended r := by
  have ha : a r ≠ .spent := fun ha => h (by rw [ended_eq, ha])
  rw [ended_eq, ended_eq, hab ha]

theorem Takes.ended (h : Takes n a r) : Takes n a.ended r :=
  h.bind (n := 0) (fun _ _ _ => pure_takes true) (Nat.le_refl _)

end Read

namespace Reader

variable (α : Type) [Scalar α] [Numeral α]

namespace Operation

/-- What is done for an operation with so much fuel, and whether it succeeded if there is no fault:
a token that is not of the kind to eat is no fault. -/
def action (fuel : Nat) : Operation → Read Bool
  | next => Read.next.ended
  | eat kind => Read.eat kind
  | expect kinds => (Read.expect kinds).ended
  | register name => (Read.register name).ended
  | sum => (Read.sum (α := α) fuel).ended
  | atom => (Read.atom (α := α) fuel).ended
  | group => (Read.group (α := α) fuel).ended
  | args => (Read.args (α := α) fuel).ended
  | full => (checkedToEnd α fuel).ended

/-- **An operation does its action** with the fuel of the reader. -/
theorem perform_eq (op : Operation) (r : Reader) :
    op.perform α r = (r.perform (op.action α r.fuel)).map fault id := by
  have hended {β : Type} (a : Read β) :
      (r.perform a).map fault id = (r.perform a.ended).map fault id := by
    show _ = (r.perform (Read.bind a fun _ => Read.pure true)).map fault id
    unfold Reader.perform Read.bind
    cases a r <;> rfl
  cases op with
  | eat kind => rfl
  | register name => exact hended (Read.register name)
  | full =>
    rw [perform, full_eq]
    exact hended _
  | _ => exact hended _

/-- The reader after an operation. -/
def after (op : Operation) (r : Reader) : Reader := (op.perform α r).2

/-- The operation ends well: there is no fault, and if there was a token to eat, it was eaten. -/
def Succeeds (op : Operation) (r : Reader) : Prop :=
  ∃ r', op.action α r.fuel r = .done true r'

/-- How an operation that ends well moves a reader, from the first place to the second one. -/
def Moves : Operation → Nat → Nat → Prop
  | next, p, q | eat _, p, q | expect _, p, q => q = p + 1
  | register _, p, q => q = p
  | sum, p, q | atom, p, q | full, p, q => p + 1 ≤ q
  | group, p, q => p + 2 ≤ q
  | args, p, q => p + 3 ≤ q

/-- The operations that look at one token. -/
def OnToken : Operation → Prop
  | next | eat _ | expect _ => True
  | _ => False

/-- **An operation makes progress on a reader.** It ends, and as it would with any more fuel. The
reader moves forward among its tokens, by as many of them as the operation has to read if it ends
well, and it forgets neither tokens nor variables. -/
structure Progresses (op : Operation) (r : Reader) : Prop where
  ends : op.action α r.fuel r ≠ .spent
  settled {fuel : Nat} : r.fuel ≤ fuel → op.action α fuel r = op.action α r.fuel r
  tokens : (op.after α r).tokens = r.tokens
  vars {c : Char} : c ∈ r.vars → c ∈ (op.after α r).vars
  forward : r.position ≤ (op.after α r).position
  within : (op.after α r).position ≤ r.tokens.length
  moves : op.Succeeds α r → op.Moves r.position (op.after α r).position
  stays : op.OnToken → ¬ op.Succeeds α r → op.after α r = r

/-- The reader after operations one after the other. -/
def run (ops : List Operation) (r : Reader) : Reader := ops.foldl (fun r op => op.after α r) r

variable {α} {op : Operation} {r r' : Reader}

/-- What an operation has to read. -/
def least : Operation → Nat
  | eat _ | register _ => 0
  | next | expect _ | sum | atom | full => 1
  | group => 2
  | args => 3

theorem action_takes (op : Operation) {fuel : Nat} (h : r.fuel ≤ fuel) :
    Read.Takes op.least (op.action α fuel) r := by
  have hs := progressing α fuel
  have hfuel : 10 * r.ahead.length + 10 ≤ fuel := h
  cases op with
  | next => exact Read.next_takes.ended
  | eat kind => exact Read.eat_takes kind
  | expect kinds => exact (Read.expect_takes kinds).ended
  | register name => exact (Read.register_takes name).ended
  | sum => exact (hs.sum (by omega)).ended
  | atom => exact (hs.atom (by omega)).ended
  | group => exact (hs.group (by omega)).ended
  | args => exact (hs.args (by omega)).ended
  | full => exact (checkedToEnd_takes α (by omega)).ended

/-- With any more fuel, the outcome of an operation is the same. -/
theorem action_settled (op : Operation) {fuel : Nat} (h : r.fuel ≤ fuel)
    (hends : op.action α r.fuel r ≠ .spent) : op.action α fuel r = op.action α r.fuel r := by
  have hC : (Correspondence.same r.length).Sound := Correspondence.same_sound
  have hs := mirroring α hC h
  have hr := Correspondence.Readers.refl r
  cases op with
  | sum => exact Read.ended_congr hends (hs.sum r r hr).eq_of_same
  | atom => exact Read.ended_congr hends (hs.atom r r hr).eq_of_same
  | group => exact Read.ended_congr hends (hs.group r r hr).eq_of_same
  | args => exact Read.ended_congr hends (hs.args r r hr).eq_of_same
  | full =>
    refine Read.ended_congr hends fun hspent => ?_
    rcases hfault : fault? r.length r.tokens with _ | fault
    · rw [checkedToEnd_of_none hfault] at hspent ⊢
      rw [checkedToEnd_of_none hfault]
      exact (toEnd_mirrors α hC h r r hr).eq_of_same hspent
    · rw [checkedToEnd_of_fault hfault, checkedToEnd_of_fault hfault]
  | _ => rfl

theorem after_of_done {b : Bool} (h : op.action α r.fuel r = .done b r') : op.after α r = r' := by
  rw [after, perform_eq, Reader.perform, h]
  rfl

theorem after_of_failed {fault : Fault} (h : op.action α r.fuel r = .failed fault r') :
    op.after α r = r' := by
  rw [after, perform_eq, Reader.perform, h]
  rfl

theorem advances_after (op : Operation) (r : Reader) : Advances r (op.after α r) := by
  have htakes := op.action_takes (α := α) (Nat.le_refl r.fuel)
  unfold Read.Takes at htakes
  rcases h : op.action α r.fuel r with ⟨b, r'⟩ | ⟨fault, r'⟩ | _ <;> rw [h] at htakes
  · rw [after_of_done h]
    exact htakes.1
  · rw [after_of_failed h]
    exact htakes
  · exact htakes.elim

theorem moves_of_done (h : op.action α r.fuel r = .done true r') :
    op.Moves r.position r'.position := by
  have htakes := op.action_takes (α := α) (Nat.le_refl r.fuel)
  rw [Read.Takes, h] at htakes
  have hadd := htakes.1.position_add
  have hle : r.position + op.least ≤ r'.position := by
    have := htakes.2
    omega
  cases op with
  | next =>
    rcases Read.next_cases r with ⟨fault, hnext⟩ | ⟨t, r₁, hnext, hfurther⟩ <;>
      rw [action, Read.ended_eq, hnext] at h <;> cases h
    exact hfurther.position
  | eat kind =>
    rcases Read.eat_cases kind r with heat | ⟨r₁, heat, hfurther⟩ <;>
      rw [action, heat] at h <;> cases h
    exact hfurther.position
  | expect kinds =>
    rcases Read.expect_cases kinds r with ⟨fault, hexpect⟩ | ⟨t, r₁, hexpect, hfurther⟩ <;>
      rw [action, Read.ended_eq, hexpect] at h <;> cases h
    exact hfurther.position
  | register name =>
    cases h
    rfl
  | _ => exact hle

theorem after_of_not_succeeds (hop : op.OnToken) (h : ¬ op.Succeeds α r) : op.after α r = r := by
  cases op with
  | next =>
    rcases Read.next_cases r with ⟨fault, hnext⟩ | ⟨t, r₁, hnext, -⟩
    · exact after_of_failed (by rw [action, Read.ended_eq, hnext])
    · exact absurd ⟨r₁, by rw [action, Read.ended_eq, hnext]⟩ h
  | eat kind =>
    rcases Read.eat_cases kind r with heat | ⟨r₁, heat, -⟩
    · exact after_of_done heat
    · exact absurd ⟨r₁, heat⟩ h
  | expect kinds =>
    rcases Read.expect_cases kinds r with ⟨fault, hexpect⟩ | ⟨t, r₁, hexpect, -⟩
    · exact after_of_failed (by rw [action, Read.ended_eq, hexpect])
    · exact absurd ⟨r₁, by rw [action, Read.ended_eq, hexpect]⟩ h
  | _ => exact hop.elim

/-- **One operation** makes progress on any reader. -/
theorem progresses (op : Operation) (r : Reader) : op.Progresses α r := by
  have hadvances := advances_after (α := α) op r
  have hadd := hadvances.position_add
  have hends : op.action α r.fuel r ≠ .spent := by
    have htakes := op.action_takes (α := α) (Nat.le_refl r.fuel)
    intro h
    rw [Read.Takes, h] at htakes
    exact htakes
  exact
    { ends := hends
      settled := fun h => op.action_settled h hends
      tokens := hadvances.tokens
      vars := hadvances.vars
      forward := hadvances.behind.length_le
      within := hadvances.tokens ▸ position_le _
      moves := fun ⟨r', h⟩ => by
        rw [after_of_done h]
        exact moves_of_done h
      stays := after_of_not_succeeds }

/-- **Any operations** one after the other keep a reader among its tokens. -/
theorem advances_run : ∀ (ops : List Operation) (r : Reader), Advances r (run α ops r)
  | [], r => .refl r
  | op :: ops, r => (advances_after op r).trans (advances_run ops (op.after α r))

end Operation

/-- **Reading makes progress.** Whatever tokens a reader starts with and wherever among them, and
whatever it has been asked for: it has its tokens and at least its variables still, it stands no
earlier and among its tokens, and the next operation makes progress again. -/
theorem reading_progresses (α : Type) [Scalar α] [Numeral α] (start : Reader)
    (ops : List Operation) (op : Operation) :
    let r := Operation.run α ops start
    r.tokens = start.tokens ∧ (∀ c ∈ start.vars, c ∈ r.vars) ∧
      start.position ≤ r.position ∧ r.position ≤ start.tokens.length ∧ op.Progresses α r := by
  have hadvances := Operation.advances_run (α := α) ops start
  exact ⟨hadvances.tokens, fun _ hc => hadvances.vars hc, hadvances.behind.length_le,
    hadvances.tokens ▸ position_le _, op.progresses _⟩

end Reader

end SymbolicAlgebra
