import Mathlib.Data.List.Basic
import SymbolicAlgebra.Reader.Parse

/-! # Steps of a reader

What an action on a reader that ends well does to the reader: it moves some tokens from ahead to
behind (`Passes`). `Reads a r ts x` says that the action `a` does so with the tokens `ts` and gives
`x`. One lemma a basic action says when it ends well and what it passes. -/

namespace SymbolicAlgebra

variable {β γ : Type}

/-- The reader `r'` is the reader `r` after the tokens `ts`. -/
structure Passes (r : Reader) (ts : List Token) (r' : Reader) : Prop where
  ahead : r.ahead = ts ++ r'.ahead
  behind : r'.behind = ts.reverse ++ r.behind

namespace Passes

variable {r r₁ r₂ : Reader} {ts us rest : List Token}

theorem refl (r : Reader) : Passes r [] r := ⟨rfl, rfl⟩

theorem trans (h : Passes r ts r₁) (h' : Passes r₁ us r₂) : Passes r (ts ++ us) r₂ := by
  constructor
  · rw [h.ahead, h'.ahead, List.append_assoc]
  · rw [h'.behind, h.behind, List.reverse_append, List.append_assoc]

theorem ahead_eq (h : Passes r ts r₁) (hr : r.ahead = ts ++ rest) : r₁.ahead = rest :=
  List.append_cancel_left (h.ahead.symm.trans hr)

theorem ahead_eq_self (h : Passes r [] r₁) (hr : r.ahead = rest) : r₁.ahead = rest :=
  h.ahead_eq hr

theorem ahead_eq_tail {t : Token} (h : Passes r [t] r₁) (hr : r.ahead = t :: rest) :
    r₁.ahead = rest :=
  h.ahead_eq hr

end Passes

/-! ### The token ahead -/

namespace Reader

variable {r : Reader}

theorem peek?_eq_none (h : r.ahead = []) : r.peek? = none := by
  rw [peek?, current?, h]
  rfl

theorem peek?_eq_kind {t : Token} {rest : List Token} (h : r.ahead = t :: rest) :
    r.peek? = some t.kind := by
  rw [peek?, current?, h]
  rfl

end Reader

namespace Read

/-! ### Sequences of actions -/

theorem bind_done_iff {a : Read β} {f : β → Read γ} {r r' : Reader} {y : γ} :
    (a >>= f) r = .done y r' ↔ ∃ x r₁, a r = .done x r₁ ∧ f x r₁ = .done y r' := by
  show Read.bind a f r = _ ↔ _
  unfold Read.bind
  cases a r with
  | done x r₁ =>
    constructor
    · exact fun h => ⟨x, r₁, rfl, h⟩
    · rintro ⟨x', r₂, h, hf⟩
      cases h
      exact hf
  | _ => simp

theorem pure_done_iff {x y : β} {r r' : Reader} :
    (pure x : Read β) r = .done y r' ↔ x = y ∧ r = r' := by
  show Outcome.done x r = _ ↔ _
  rw [Outcome.done.injEq]

theorem get_bind_done_iff {f : Reader → Read γ} {r r' : Reader} {y : γ} :
    (get >>= f) r = .done y r' ↔ f r r = .done y r' := Iff.rfl

/-! ### Basic actions that end well -/

theorem next_done {r r' : Reader} {t : Token} (h : next r = .done t r') : Passes r [t] r' := by
  unfold next at h
  split at h
  · next ahead hr =>
    cases h
    exact ⟨hr, rfl⟩
  · cases h

theorem eat_true {kind : TokenKind} {r r' : Reader} (h : eat kind r = .done true r') :
    ∃ t, t.kind = kind ∧ Passes r [t] r' := by
  unfold eat at h
  split at h
  · next t ahead hr =>
    by_cases hkind : t.kind = kind
    · rw [if_pos hkind] at h
      cases h
      exact ⟨t, hkind, hr, rfl⟩
    · rw [if_neg hkind] at h
      cases h
  · cases h

theorem eat_false {kind : TokenKind} {r r' : Reader} (h : eat kind r = .done false r') :
    r' = r ∧ r.peek? ≠ some kind := by
  unfold eat at h
  split at h
  · next t ahead hr =>
    by_cases hkind : t.kind = kind
    · rw [if_pos hkind] at h
      cases h
    · rw [if_neg hkind] at h
      cases h
      refine ⟨rfl, ?_⟩
      rw [Reader.peek?_eq_kind hr]
      simpa using hkind
  · next hr =>
    cases h
    refine ⟨rfl, ?_⟩
    rw [Reader.peek?_eq_none hr]
    simp

theorem expect_done {kinds : List TokenKind} {r r' : Reader} {t : Token}
    (h : expect kinds r = .done t r') : t.kind ∈ kinds ∧ Passes r [t] r' := by
  unfold expect at h
  split at h
  · next u ahead hr =>
    split_ifs at h with hkind
    have hpass := next_done h
    have hut : u = t := by
      have heq := hr.symm.trans hpass.ahead
      exact (List.cons_eq_cons.mp heq).1
    exact ⟨hut ▸ hkind, hpass⟩
  · cases h

/-! ### Composed actions -/

section Composed
variable {α : Type} [Scalar α] [Numeral α]

/-- A sum is read to the end if no token is left after it. -/
theorem toEnd_done_iff {fuel : Nat} {r r' : Reader} {e : Expr α} :
    Reader.toEnd fuel r = .done e r' ↔ sum fuel r = .done e r' ∧ r'.ahead = [] := by
  rw [Reader.toEnd, bind_done_iff]
  constructor
  · rintro ⟨e', r₁, hsum, h⟩
    replace h := get_bind_done_iff.mp h
    rcases hahead : r₁.ahead with _ | ⟨t, rest⟩
    · simp only [Reader.peek?_eq_none hahead] at h
      obtain ⟨rfl, rfl⟩ := pure_done_iff.mp h
      exact ⟨hsum, hahead⟩
    · simp only [Reader.peek?_eq_kind hahead] at h
      cases h
  · rintro ⟨hsum, hahead⟩
    refine ⟨e, r', hsum, get_bind_done_iff.mpr ?_⟩
    simp only [Reader.peek?_eq_none hahead]
    rfl

/-- The operand of a function that is not a logarithm with a base: arguments in brackets or the atom
that follows. -/
def operand (fuel : Nat) (f : Callable) (span : Span) : Read (Expr α) := do
  if (← get).peek? = some .opening then
    let given ← args fuel
    let stop := match (← get).previous? with
      | some t => t.span.stop
      | none => span.stop
    call f given ⟨span.start, stop⟩
  else
    let a ← atom fuel
    call f [a] span

theorem application_log (fuel : Nat) (span : Span) :
    application (α := α) (fuel + 1) .log span =
      (eat .underscore >>= fun base =>
        if base then logarithm fuel else operand fuel .log span) := by
  rw [application, if_pos rfl]
  rfl

theorem application_eq_operand {f : Callable} (hf : f ≠ .log) (fuel : Nat) (span : Span) :
    application (α := α) (fuel + 1) f span = operand fuel f span := by
  rw [application, if_neg hf]
  rfl

end Composed

/-! ### Actions that read given tokens -/

/-- The action ends well on the reader: it passes the tokens and gives the value. -/
def Reads (a : Read β) (r : Reader) (ts : List Token) (x : β) : Prop :=
  ∃ r', Passes r ts r' ∧ a r = .done x r'

namespace Reads

variable {a : Read β} {f : β → Read γ} {r : Reader} {ts us rest : List Token} {x : β} {y : γ}

theorem pure (x : β) (r : Reader) : Reads (Pure.pure x) r [] x := ⟨r, .refl r, rfl⟩

theorem bind (h : Reads a r ts x) (hf : ∀ r₁, Passes r ts r₁ → Reads (f x) r₁ us y) :
    Reads (a >>= f) r (ts ++ us) y := by
  obtain ⟨r₁, hpass, hx⟩ := h
  obtain ⟨r₂, hpass', hy⟩ := hf r₁ hpass
  exact ⟨r₂, hpass.trans hpass', bind_done_iff.mpr ⟨x, r₁, hx, hy⟩⟩

/-- An action that reads one token first. -/
theorem bind_cons {t : Token} (h : Reads a r [t] x)
    (hf : ∀ r₁, Passes r [t] r₁ → Reads (f x) r₁ us y) : Reads (a >>= f) r (t :: us) y :=
  h.bind hf

/-- An action that reads no token first. -/
theorem bind_nil (h : Reads a r [] x) (hf : ∀ r₁, Passes r [] r₁ → Reads (f x) r₁ us y) :
    Reads (a >>= f) r us y := h.bind hf

/-- A last step that reads nothing more. -/
theorem map {g : β → γ} (h : Reads a r ts x) :
    Reads (do let x ← a; Pure.pure (g x)) r ts (g x) := by
  have hmap := h.bind (f := fun x => Pure.pure (g x)) fun r₁ _ => Reads.pure (g x) r₁
  rwa [List.append_nil] at hmap

theorem get_bind {f : Reader → Read γ} (h : Reads (f r) r us y) : Reads (get >>= f) r us y := by
  obtain ⟨r', hpass, hy⟩ := h
  exact ⟨r', hpass, bind_done_iff.mpr ⟨r, r, rfl, hy⟩⟩

theorem next {t : Token} (hr : r.ahead = t :: rest) : Reads Read.next r [t] t := by
  refine ⟨⟨r.length, t :: r.behind, rest, r.vars⟩, ⟨hr, rfl⟩, ?_⟩
  rw [Read.next, hr]

theorem eat {t : Token} (hr : r.ahead = t :: rest) : Reads (Read.eat t.kind) r [t] true := by
  refine ⟨⟨r.length, t :: r.behind, rest, r.vars⟩, ⟨hr, rfl⟩, ?_⟩
  rw [Read.eat, hr]
  exact if_pos rfl

theorem not_eat {kind : TokenKind} (h : r.peek? ≠ some kind) :
    Reads (Read.eat kind) r [] false := by
  refine ⟨r, .refl r, ?_⟩
  unfold Read.eat
  split
  · next t ahead hr =>
    rw [Reader.peek?_eq_kind hr] at h
    exact if_neg (by simpa using h)
  · rfl

theorem expect {kinds : List TokenKind} {t : Token} (hr : r.ahead = t :: rest)
    (ht : t.kind ∈ kinds) : Reads (Read.expect kinds) r [t] t := by
  obtain ⟨r', hpass, hnext⟩ := Reads.next hr
  refine ⟨r', hpass, ?_⟩
  rw [Read.expect, hr]
  exact (if_pos ht).trans hnext

end Reads

end Read

end SymbolicAlgebra
