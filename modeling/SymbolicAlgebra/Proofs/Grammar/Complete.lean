import SymbolicAlgebra.Proofs.Grammar.Sound

/-! # The parser reads every phrase

The other direction: on tokens that begin with a phrase, the action for it reads exactly the phrase
and gives what it stands for (`accepts`), provided that the fuel lasts and that no token follows
with which the action would go on. What may not follow differs from kind to kind: an operator that
binds as tightly as the phrase or tighter, and for sums and products an opening bracket right after
a closing one.

Ten units of fuel a token are enough. -/

namespace SymbolicAlgebra.Grammar

open Read (Reads)

/-! ### What may follow a phrase -/

/-- The first of the tokens, if there is one, is of none of the kinds. -/
def Stops (kinds : List TokenKind) (rest : List Token) : Prop :=
  ∀ t, rest.head? = some t → t.kind ∉ kinds

/-- Whether the last token is a closing bracket, or the one before them all if there are none. -/
def closedAfter (before : Bool) (ts : List Token) : Bool :=
  if ts = [] then before else endsClosed ts

/-- The tokens behind, and then these ones, do not end with a closing bracket that an opening one
follows. -/
def Apart (before : Bool) (ts rest : List Token) : Prop :=
  closedAfter before ts = true → startsOpen rest = false

theorem Stops.mono {kinds kinds' : List TokenKind} {rest : List Token} (h : Stops kinds rest)
    (hkinds : ∀ k ∈ kinds', k ∈ kinds) : Stops kinds' rest :=
  fun t ht hmem => h t ht (hkinds _ hmem)

theorem Stops.peek_ne {kinds : List TokenKind} {rest : List Token} {r : Reader} {k : TokenKind}
    (h : Stops kinds rest) (hr : r.ahead = rest) (hk : k ∈ kinds) : r.peek? ≠ some k := by
  intro hpeek
  rw [Reader.peek?, Reader.current?, hr, Option.map_eq_some_iff] at hpeek
  obtain ⟨t, ht, rfl⟩ := hpeek
  exact h t ht hk

theorem Stops.cons {kinds : List TokenKind} {t : Token} {rest : List Token} (ht : t.kind ∉ kinds) :
    Stops kinds (t :: rest) := by
  intro u hu
  rwa [← Option.some.inj hu]

theorem closedAfter_append (before : Bool) (ts us : List Token) :
    closedAfter before (ts ++ us) = closedAfter (closedAfter before ts) us := by
  by_cases hus : us = []
  · subst hus
    rw [List.append_nil]
    rfl
  · simp [closedAfter, hus, endsClosed, List.getLast?_append_of_ne_nil _ hus]

theorem closedAfter_of_ne_nil {ts : List Token} (h : ts ≠ []) (before : Bool) :
    closedAfter before ts = endsClosed ts := if_neg h

theorem closed_passes {r r' : Reader} {ts : List Token} (h : Passes r ts r') :
    closed r' = closedAfter (closed r) ts := by
  by_cases hts : ts = []
  · subst hts
    rw [closed, closed, Reader.previous?, Reader.previous?, h.behind]
    rfl
  · rw [closed_eq h hts, closedAfter_of_ne_nil hts]

theorem Apart.cons {before : Bool} {ts rest : List Token} {t : Token} (ht : t.kind ≠ .opening) :
    Apart before ts (t :: rest) := by
  intro _
  simp [startsOpen, ht]

theorem Apart.right {before : Bool} (ts : List Token) {us rest : List Token}
    (h : Apart before (ts ++ us) rest) : Apart false us rest := by
  intro hclosed
  by_cases hus : us = []
  · rw [hus] at hclosed
    cases hclosed
  · refine h ?_
    rwa [closedAfter_append, closedAfter_of_ne_nil hus, ← closedAfter_of_ne_nil hus false]

theorem Apart.last {before : Bool} {ts us rest : List Token} (h : Apart before (ts ++ us) rest)
    (hts : ts ≠ []) : Apart (endsClosed ts) us rest := by
  intro hclosed
  refine h ?_
  rwa [closedAfter_append, closedAfter_of_ne_nil hts]

theorem endsClosed_cons (t : Token) {ts : List Token} (h : ts ≠ []) :
    endsClosed (t :: ts) = endsClosed ts := by
  rw [endsClosed, endsClosed, List.getLast?_cons_of_ne_nil h]

theorem Apart.tail {before : Bool} {t : Token} {ts rest : List Token}
    (h : Apart before (t :: ts) rest)
    (hts : ts ≠ []) : Apart before ts rest := by
  intro hclosed
  refine h ?_
  rwa [closedAfter_of_ne_nil (List.cons_ne_nil t ts), endsClosed_cons t hts,
    ← closedAfter_of_ne_nil hts before]

/-! ### How phrases start -/

variable {α : Type} [Scalar α] [Numeral α]

/-- The kinds of phrases that start with an operand. -/
def Phrase.unsigned : Phrase → Bool
  | product => true
  | quotient signed => !signed
  | power signed => !signed
  | atom => true
  | _ => false

/-- **An unsigned phrase starts with an operand**, so not with a minus. -/
theorem Derives.startsOperand {p : Phrase} {ts : List Token} {x : p.Meaning α} (h : Derives p ts x)
    (hp : p.unsigned = true) : ∃ t us, ts = t :: us ∧ t.kind.startsOperand = true := by
  induction h with
  | product h hs ih _ =>
    obtain ⟨t, us, rfl, ht⟩ := ih rfl
    exact ⟨t, _, rfl, ht⟩
  | quotient h ih => exact ih hp
  | fraction ha ht hb ih _ =>
    obtain ⟨t, us, rfl, ht⟩ := ih hp
    exact ⟨t, _, rfl, ht⟩
  | power h ih => exact ih rfl
  | raised ha ht hb ih _ =>
    obtain ⟨t, us, rfl, ht⟩ := ih rfl
    exact ⟨t, _, rfl, ht⟩
  | number ht hx => exact ⟨_, _, rfl, by rw [ht]; rfl⟩
  | name ht h ih => exact ⟨_, _, rfl, by rw [ht]; rfl⟩
  | group ht h hu ih => exact ⟨_, _, rfl, by rw [ht]; rfl⟩
  | _ => simp [Phrase.unsigned] at hp

/-- A reader before an unsigned phrase is not at a token that an operand cannot start with. -/
theorem Derives.peek_ne {p : Phrase} {ts rest : List Token} {x : p.Meaning α} {r : Reader}
    {k : TokenKind} (h : Derives p ts x) (hp : p.unsigned = true) (hr : r.ahead = ts ++ rest)
    (hk : k.startsOperand = false) : r.peek? ≠ some k := by
  obtain ⟨t, us, rfl, ht⟩ := h.startsOperand hp
  rw [Reader.peek?_eq_kind hr]
  intro hpeek
  rw [← Option.some.inj hpeek, ht] at hk
  cases hk

/-- What follows the last product before the rest of a sum. -/
theorem Derives.terms_follow {ts us rest : List Token} {es : List (Expr α)}
    (h : Derives .terms us es) (hstops : Stops [.plus, .minus, .times, .slash, .caret] rest)
    (hapart : Apart false (ts ++ us) rest) :
    Stops [.times, .slash, .caret] (us ++ rest) ∧ Apart false ts (us ++ rest) := by
  have hmono : Stops [.times, .slash, .caret] rest := hstops.mono (by decide)
  cases h with
  | noTerms =>
    rw [List.append_nil] at hapart
    exact ⟨hmono, hapart⟩
  | plus ht _ _ => exact ⟨.cons (by rw [ht]; decide), .cons (by rw [ht]; decide)⟩
  | minus ht _ _ => exact ⟨.cons (by rw [ht]; decide), .cons (by rw [ht]; decide)⟩

/-- What follows the last quotient before the rest of a product. -/
theorem Derives.factors_follow {closed : Bool} {us rest : List Token} {es : List (Expr α)}
    (h : Derives (.factors closed) us es) (hstops : Stops [.times, .slash, .caret] rest) :
    Stops [.slash, .caret] (us ++ rest) := by
  cases h with
  | noFactors => exact hstops.mono (by decide)
  | times ht _ _ => exact .cons (by rw [ht]; decide)
  | beside ht h _ =>
    obtain ⟨t, ts, rfl⟩ := List.exists_cons_of_ne_nil (h.ne_nil rfl)
    have hkind : t.kind = .opening := by simpa [startsOpen] using ht
    exact .cons (by rw [hkind]; decide)

/-! ### What it takes to read a phrase -/

def AcceptsSum (ts : List Token) (e : Expr α) : Prop :=
  ∀ (fuel : Nat) (r : Reader) (rest : List Token), 10 * ts.length + 4 ≤ fuel →
    r.ahead = ts ++ rest → Stops [.plus, .minus, .times, .slash, .caret] rest →
    Apart false ts rest → Reads (Read.sum fuel) r ts e

def AcceptsTerms (ts : List Token) (es : List (Expr α)) : Prop :=
  ∀ (fuel : Nat) (r : Reader) (rest : List Token) (read : List (Expr α)),
    10 * ts.length + 1 ≤ fuel → r.ahead = ts ++ rest →
    Stops [.plus, .minus, .times, .slash, .caret] rest → Apart false ts rest →
    Reads (Read.terms fuel read) r ts (Read.combine Expr.sumOf (read.reverse ++ es))

def AcceptsProduct (ts : List Token) (e : Expr α) : Prop :=
  ∀ (fuel : Nat) (r : Reader) (rest : List Token), 10 * ts.length + 3 ≤ fuel →
    r.ahead = ts ++ rest → Stops [.times, .slash, .caret] rest → Apart false ts rest →
    Reads (Read.product fuel) r ts e

def AcceptsFactors (before : Bool) (ts : List Token) (es : List (Expr α)) : Prop :=
  ∀ (fuel : Nat) (r : Reader) (rest : List Token) (read : List (Expr α)),
    10 * ts.length + 3 ≤ fuel → closed r = before → r.ahead = ts ++ rest →
    Stops [.times, .slash, .caret] rest → Apart before ts rest →
    Reads (Read.factors fuel read) r ts (Read.combine Expr.productOf (read.reverse ++ es))

def AcceptsQuotient (ts : List Token) (e : Expr α) : Prop :=
  ∀ (fuel : Nat) (r : Reader) (rest : List Token), 10 * ts.length + 2 ≤ fuel →
    r.ahead = ts ++ rest → Stops [.slash, .caret] rest → Reads (Read.quotient fuel) r ts e

def AcceptsPower (ts : List Token) (e : Expr α) : Prop :=
  ∀ (fuel : Nat) (r : Reader) (rest : List Token), 10 * ts.length + 1 ≤ fuel →
    r.ahead = ts ++ rest → Stops [.caret] rest → Reads (Read.power fuel) r ts e

/-- An atom is read whatever follows. One in brackets can also be read as the argument of a call. -/
structure AcceptsAtom (ts : List Token) (e : Expr α) : Prop where
  reads (fuel : Nat) (r : Reader) (rest : List Token) : 10 * ts.length ≤ fuel →
    r.ahead = ts ++ rest → Reads (Read.atom fuel) r ts e
  inside : startsOpen ts = true →
    ∃ t us u, ts = t :: us ++ [u] ∧ t.kind = .opening ∧ u.kind = .closing ∧ AcceptsSum us e

def AcceptsApplication (f : Callable) (ts : List Token) (e : Expr α) : Prop :=
  ∀ (fuel : Nat) (span : Span) (r : Reader) (rest : List Token), 10 * ts.length + 8 ≤ fuel →
    r.ahead = ts ++ rest → Reads (Read.application fuel f span) r ts e

/-- The arguments of a call are read up to its closing bracket. -/
def AcceptsArgs (ts : List Token) (es : List (Expr α)) : Prop :=
  ∀ (fuel : Nat) (r : Reader) (u : Token) (rest : List Token) (read : List (Expr α)),
    10 * ts.length + 5 ≤ fuel → u.kind = .closing → r.ahead = ts ++ u :: rest →
    Reads (do let e ← Read.sum fuel; Read.moreArgs fuel (e :: read)) r (ts ++ [u])
      (read.reverse ++ es)

/-- The parser reads the phrase. -/
def Accepts : (p : Phrase) → List Token → p.Meaning α → Prop
  | .sum => AcceptsSum
  | .terms => AcceptsTerms
  | .product => AcceptsProduct
  | .factors before => AcceptsFactors before
  | .quotient _ => AcceptsQuotient
  | .power _ => AcceptsPower
  | .atom => AcceptsAtom
  | .named n => NameMeans AcceptsApplication n
  | .application f => AcceptsApplication f
  | .args => AcceptsArgs

/-! ### Sums and products -/

theorem accepts_sum {ts us : List Token} {e : Expr α} {es : List (Expr α)}
    (h : Derives .product ts e) (hs : Derives .terms us es) (hp : AcceptsProduct ts e)
    (ht : AcceptsTerms us es) : AcceptsSum (ts ++ us) (Read.combine Expr.sumOf (e :: es)) := by
  intro fuel r rest hfuel hr hstops hapart
  rw [List.length_append] at hfuel
  rw [List.append_assoc] at hr
  obtain ⟨k, rfl⟩ : ∃ k, fuel = k + 1 := ⟨fuel - 1, by omega⟩
  obtain ⟨hstops', hapart'⟩ := hs.terms_follow hstops hapart
  rw [Read.sum]
  refine (Reads.not_eat (h.peek_ne rfl hr rfl)).bind_nil fun r₁ hpass => ?_
  have hr₁ : r₁.ahead = ts ++ (us ++ rest) := hpass.ahead_eq hr
  refine (hp k r₁ _ (by omega) hr₁ hstops' hapart').bind fun r₂ hpass => ?_
  exact ht k r₂ rest [e] (by omega) (hpass.ahead_eq hr₁) hstops (hapart.right _)

theorem accepts_negatedSum {t : Token} {ts us : List Token} {e : Expr α} {es : List (Expr α)}
    (hminus : t.kind = .minus) (h : Derives .product ts e) (hs : Derives .terms us es)
    (hp : AcceptsProduct ts e) (ht : AcceptsTerms us es) :
    AcceptsSum (t :: ts ++ us) (Read.combine Expr.sumOf (e.neg :: es)) := by
  intro fuel r rest hfuel hr hstops hapart
  rw [List.length_append, List.length_cons] at hfuel
  rw [List.append_assoc, List.cons_append] at hr
  obtain ⟨k, rfl⟩ : ∃ k, fuel = k + 1 := ⟨fuel - 1, by omega⟩
  have hne : ts ++ us ≠ [] := List.append_ne_nil_of_left_ne_nil (h.ne_nil rfl) us
  obtain ⟨hstops', hapart'⟩ := hs.terms_follow hstops (hapart.tail hne)
  rw [Read.sum, ← hminus]
  refine (Reads.eat hr).bind_cons fun r₁ hpass => ?_
  have hr₁ : r₁.ahead = ts ++ (us ++ rest) := hpass.ahead_eq hr
  refine (hp k r₁ _ (by omega) hr₁ hstops' hapart').bind fun r₂ hpass => ?_
  exact ht k r₂ rest [e.neg] (by omega) (hpass.ahead_eq hr₁) hstops (hapart.right _)

theorem accepts_noTerms : AcceptsTerms (α := α) [] [] := by
  intro fuel r rest read hfuel hr hstops _
  obtain ⟨k, rfl⟩ : ∃ k, fuel = k + 1 := ⟨fuel - 1, by omega⟩
  rw [Read.terms, List.append_nil]
  refine (Reads.not_eat (hstops.peek_ne hr (by decide))).bind_nil fun r₁ hpass => ?_
  refine (Reads.not_eat (hstops.peek_ne (hpass.ahead_eq hr) (by decide))).bind_nil fun r₂ _ => ?_
  exact .pure _ r₂

/-- One more term after its sign, which says what becomes of it. -/
theorem reads_term {t : Token} {ts us rest : List Token} {e : Expr α} {es read : List (Expr α)}
    {fuel : Nat} {r : Reader} (signed : Expr α → Expr α) (h : Derives .product ts e)
    (hs : Derives .terms us es) (hp : AcceptsProduct ts e) (ht : AcceptsTerms us es)
    (hfuel : 10 * (t :: ts ++ us).length ≤ fuel) (hr : r.ahead = ts ++ (us ++ rest))
    (hstops : Stops [.plus, .minus, .times, .slash, .caret] rest)
    (hapart : Apart false (t :: ts ++ us) rest) :
    Reads (do let term ← Read.product fuel; Read.terms fuel (signed term :: read)) r (ts ++ us)
      (Read.combine Expr.sumOf (read.reverse ++ signed e :: es)) := by
  rw [List.length_append, List.length_cons] at hfuel
  have hne : ts ++ us ≠ [] := List.append_ne_nil_of_left_ne_nil (h.ne_nil rfl) us
  obtain ⟨hstops', hapart'⟩ := hs.terms_follow hstops (hapart.tail hne)
  refine (hp fuel r _ (by omega) hr hstops' hapart').bind fun r₁ hpass => ?_
  have hrest :=
    ht fuel r₁ rest (signed e :: read) (by omega) (hpass.ahead_eq hr) hstops (hapart.right _)
  rwa [List.reverse_cons, List.append_assoc, List.singleton_append] at hrest

theorem accepts_plus {t : Token} {ts us : List Token} {e : Expr α} {es : List (Expr α)}
    (hplus : t.kind = .plus) (h : Derives .product ts e) (hs : Derives .terms us es)
    (hp : AcceptsProduct ts e) (ht : AcceptsTerms us es) :
    AcceptsTerms (t :: ts ++ us) (e :: es) := by
  intro fuel r rest read hfuel hr hstops hapart
  obtain ⟨k, rfl⟩ : ∃ k, fuel = k + 1 := ⟨fuel - 1, by omega⟩
  rw [List.append_assoc, List.cons_append] at hr
  rw [Read.terms, ← hplus]
  refine (Reads.eat hr).bind_cons fun r₁ hpass => ?_
  exact reads_term id h hs hp ht (by omega) (hpass.ahead_eq hr) hstops hapart

theorem accepts_minus {t : Token} {ts us : List Token} {e : Expr α} {es : List (Expr α)}
    (hminus : t.kind = .minus) (h : Derives .product ts e) (hs : Derives .terms us es)
    (hp : AcceptsProduct ts e) (ht : AcceptsTerms us es) :
    AcceptsTerms (t :: ts ++ us) (e.neg :: es) := by
  intro fuel r rest read hfuel hr hstops hapart
  obtain ⟨k, rfl⟩ : ∃ k, fuel = k + 1 := ⟨fuel - 1, by omega⟩
  rw [List.append_assoc, List.cons_append] at hr
  have hplus : r.peek? ≠ some .plus := by
    rw [Reader.peek?_eq_kind hr, hminus]
    decide
  rw [Read.terms]
  refine (Reads.not_eat hplus).bind_nil fun r₁ hpass => ?_
  have hr₁ := hpass.ahead_eq_self hr
  rw [if_neg (by decide), ← hminus]
  refine (Reads.eat hr₁).bind_cons fun r₂ hpass => ?_
  exact reads_term Expr.neg h hs hp ht (by omega) (hpass.ahead_eq hr₁) hstops hapart

theorem accepts_product {ts us : List Token} {e : Expr α} {es : List (Expr α)}
    (h : Derives (.quotient false) ts e) (hs : Derives (.factors (endsClosed ts)) us es)
    (hq : AcceptsQuotient ts e) (hf : AcceptsFactors (endsClosed ts) us es) :
    AcceptsProduct (ts ++ us) (Read.combine Expr.productOf (e :: es)) := by
  intro fuel r rest hfuel hr hstops hapart
  rw [List.length_append] at hfuel
  rw [List.append_assoc] at hr
  obtain ⟨k, rfl⟩ : ∃ k, fuel = k + 1 := ⟨fuel - 1, by omega⟩
  have hne := h.ne_nil rfl
  have hpos := List.length_pos_of_ne_nil hne
  rw [Read.product]
  refine (hq k r _ (by omega) hr (hs.factors_follow hstops)).bind fun r₁ hpass => ?_
  exact hf k r₁ rest [e] (by omega) (closed_eq hpass hne) (hpass.ahead_eq hr) hstops
    (hapart.last hne)

theorem atImplicitProduct_eq (r : Reader) :
    Read.atImplicitProduct r = (startsOpen r.ahead && closed r) := rfl

theorem accepts_noFactors {before : Bool} : AcceptsFactors (α := α) before [] [] := by
  intro fuel r rest read hfuel hclosed hr hstops hapart
  obtain ⟨k, rfl⟩ : ∃ k, fuel = k + 1 := ⟨fuel - 1, by omega⟩
  rw [Read.factors, List.append_nil]
  refine (Reads.not_eat (hstops.peek_ne hr (by decide))).bind_nil fun r₁ hpass => ?_
  refine Reads.get_bind ?_
  have himplicit : Read.atImplicitProduct r₁ = false := by
    rw [atImplicitProduct_eq, hpass.ahead_eq hr, closed_passes hpass, hclosed]
    cases before with
    | false => exact Bool.and_false _
    | true => rw [hapart rfl, Bool.false_and]
  rw [Bool.false_or, himplicit]
  exact .pure _ r₁

/-- One more factor, which what is before it has no part in. -/
theorem reads_factor {ts us rest : List Token} {e : Expr α} {es read : List (Expr α)}
    {signed : Bool} {fuel : Nat} {r : Reader} (h : Derives (.quotient signed) ts e)
    (hs : Derives (.factors (endsClosed ts)) us es) (hq : AcceptsQuotient ts e)
    (hf : AcceptsFactors (endsClosed ts) us es) (hfuel : 10 * (ts ++ us).length + 2 ≤ fuel)
    (hr : r.ahead = ts ++ (us ++ rest)) (hstops : Stops [.times, .slash, .caret] rest)
    (hapart : Apart false (ts ++ us) rest) :
    Reads (do let factor ← Read.quotient fuel; Read.factors fuel (factor :: read)) r (ts ++ us)
      (Read.combine Expr.productOf (read.reverse ++ e :: es)) := by
  rw [List.length_append] at hfuel
  have hne := h.ne_nil rfl
  have hpos := List.length_pos_of_ne_nil hne
  refine (hq fuel r _ (by omega) hr (hs.factors_follow hstops)).bind fun r₁ hpass => ?_
  have hrest := hf fuel r₁ rest (e :: read) (by omega) (closed_eq hpass hne) (hpass.ahead_eq hr)
    hstops (hapart.last hne)
  rwa [List.reverse_cons, List.append_assoc, List.singleton_append] at hrest

theorem accepts_times {before : Bool} {t : Token} {ts us : List Token} {e : Expr α}
    {es : List (Expr α)} (htimes : t.kind = .times) (h : Derives (.quotient true) ts e)
    (hs : Derives (.factors (endsClosed ts)) us es) (hq : AcceptsQuotient ts e)
    (hf : AcceptsFactors (endsClosed ts) us es) :
    AcceptsFactors before (t :: ts ++ us) (e :: es) := by
  intro fuel r rest read hfuel _ hr hstops hapart
  obtain ⟨k, rfl⟩ : ∃ k, fuel = k + 1 := ⟨fuel - 1, by omega⟩
  rw [List.cons_append, List.length_cons] at hfuel
  rw [List.append_assoc, List.cons_append] at hr
  have hne : ts ++ us ≠ [] := List.append_ne_nil_of_left_ne_nil (h.ne_nil rfl) us
  have hapart' : Apart false (ts ++ us) rest := Apart.right [t] hapart
  rw [Read.factors, ← htimes]
  refine (Reads.eat hr).bind_cons fun r₁ hpass => Reads.get_bind ?_
  exact reads_factor h hs hq hf (by omega) (hpass.ahead_eq hr) hstops hapart'

theorem accepts_beside {ts us : List Token} {e : Expr α} {es : List (Expr α)}
    (hopen : startsOpen ts = true) (h : Derives (.quotient false) ts e)
    (hs : Derives (.factors (endsClosed ts)) us es) (hq : AcceptsQuotient ts e)
    (hf : AcceptsFactors (endsClosed ts) us es) : AcceptsFactors true (ts ++ us) (e :: es) := by
  intro fuel r rest read hfuel hclosed hr hstops hapart
  obtain ⟨k, rfl⟩ : ∃ k, fuel = k + 1 := ⟨fuel - 1, by omega⟩
  rw [List.append_assoc] at hr
  have hapart' : Apart false (ts ++ us) rest := Apart.right [] hapart
  rw [Read.factors]
  refine (Reads.not_eat (h.peek_ne rfl hr rfl)).bind_nil fun r₁ hpass => Reads.get_bind ?_
  have hr₁ : r₁.ahead = ts ++ (us ++ rest) := hpass.ahead_eq hr
  have himplicit : Read.atImplicitProduct r₁ = true := by
    obtain ⟨t, ts', rfl⟩ := List.exists_cons_of_ne_nil (h.ne_nil rfl)
    rw [atImplicitProduct_eq, closed_passes hpass, hclosed, hr₁, Bool.and_eq_true]
    exact ⟨hopen, rfl⟩
  rw [Bool.false_or, himplicit]
  exact reads_factor h hs hq hf (by omega) hr₁ hstops hapart'

/-! ### Quotients and powers -/

theorem accepts_quotient {ts : List Token} {e : Expr α} (hp : AcceptsPower ts e) :
    AcceptsQuotient ts e := by
  intro fuel r rest hfuel hr hstops
  obtain ⟨k, rfl⟩ : ∃ k, fuel = k + 1 := ⟨fuel - 1, by omega⟩
  rw [Read.quotient, ← List.append_nil ts]
  refine (hp k r rest (by omega) hr (hstops.mono (by decide))).bind fun r₁ hpass => ?_
  refine (Reads.not_eat (hstops.peek_ne (hpass.ahead_eq hr) (by decide))).bind_nil fun r₂ _ => ?_
  exact .pure _ r₂

theorem accepts_fraction {t : Token} {ts us : List Token} {a b : Expr α}
    (hp : AcceptsPower ts a) (hslash : t.kind = .slash) (hq : AcceptsQuotient us b) :
    AcceptsQuotient (ts ++ t :: us) (Expr.fraction a b) := by
  intro fuel r rest hfuel hr hstops
  rw [List.length_append, List.length_cons] at hfuel
  rw [List.append_assoc, List.cons_append] at hr
  obtain ⟨k, rfl⟩ : ∃ k, fuel = k + 1 := ⟨fuel - 1, by omega⟩
  rw [Read.quotient, ← hslash]
  refine (hp k r _ (by omega) hr (.cons (by rw [hslash]; decide))).bind fun r₁ hpass => ?_
  have hr₁ := hpass.ahead_eq hr
  refine (Reads.eat hr₁).bind_cons fun r₂ hpass => ?_
  exact (hq k r₂ rest (by omega) (hpass.ahead_eq hr₁) hstops).map

theorem accepts_power {ts : List Token} {e : Expr α} (h : Derives .atom ts e)
    (ha : AcceptsAtom ts e) : AcceptsPower ts e := by
  intro fuel r rest hfuel hr hstops
  obtain ⟨k, rfl⟩ : ∃ k, fuel = k + 1 := ⟨fuel - 1, by omega⟩
  rw [Read.power, ← List.append_nil ts]
  refine (Reads.not_eat (h.peek_ne rfl hr rfl)).bind_nil fun r₁ hpass => ?_
  have hr₁ := hpass.ahead_eq_self hr
  refine (ha.reads k r₁ rest (by omega) hr₁).bind fun r₂ hpass => ?_
  refine (Reads.not_eat (hstops.peek_ne (hpass.ahead_eq hr₁) (by decide))).bind_nil fun r₃ _ => ?_
  exact .pure _ r₃

theorem accepts_raised {t : Token} {ts us : List Token} {a b : Expr α} (h : Derives .atom ts a)
    (ha : AcceptsAtom ts a) (hcaret : t.kind = .caret) (hp : AcceptsPower us b) :
    AcceptsPower (ts ++ t :: us) (Expr.power a b) := by
  intro fuel r rest hfuel hr hstops
  rw [List.length_append, List.length_cons] at hfuel
  rw [List.append_assoc, List.cons_append] at hr
  obtain ⟨k, rfl⟩ : ∃ k, fuel = k + 1 := ⟨fuel - 1, by omega⟩
  rw [Read.power, ← hcaret]
  refine (Reads.not_eat (h.peek_ne rfl hr rfl)).bind_nil fun r₁ hpass => ?_
  have hr₁ := hpass.ahead_eq_self hr
  refine (ha.reads k r₁ _ (by omega) hr₁).bind fun r₂ hpass => ?_
  have hr₂ := hpass.ahead_eq hr₁
  refine (Reads.eat hr₂).bind_cons fun r₃ hpass => ?_
  exact (hp k r₃ rest (by omega) (hpass.ahead_eq hr₂) hstops).map

theorem accepts_negated {t : Token} {ts : List Token} {e : Expr α} (hminus : t.kind = .minus)
    (hp : AcceptsPower ts e) : AcceptsPower (t :: ts) e.neg := by
  intro fuel r rest hfuel hr hstops
  rw [List.length_cons] at hfuel
  rw [List.cons_append] at hr
  obtain ⟨k, rfl⟩ : ∃ k, fuel = k + 1 := ⟨fuel - 1, by omega⟩
  rw [Read.power, ← hminus]
  refine (Reads.eat hr).bind_cons fun r₁ hpass => ?_
  exact (hp k r₁ rest (by omega) (hpass.ahead_eq hr) hstops).map

/-! ### Atoms -/

theorem accepts_number {t : Token} {x : α} (ht : t.kind = .number)
    (hx : Numeral.read t.lexeme = some x) : AcceptsAtom [t] (Expr.const x) where
  reads fuel r rest hfuel hr := by
    rw [List.length_singleton] at hfuel
    obtain ⟨k, rfl⟩ : ∃ k, fuel = k + 1 := ⟨fuel - 1, by omega⟩
    rw [Read.atom]
    refine (Reads.next hr).bind_cons fun r₁ _ => ?_
    rw [ht]
    simp only [Read.number, hx]
    exact .pure _ r₁
  inside hopen := by
    simp [startsOpen, ht] at hopen

/-- A sum is read up to the bracket that closes it. -/
theorem AcceptsSum.closing {ts rest : List Token} {e : Expr α} {u : Token} {fuel : Nat} {r : Reader}
    (hs : AcceptsSum ts e) (hfuel : 10 * ts.length + 4 ≤ fuel) (hu : u.kind = .closing)
    (hr : r.ahead = ts ++ u :: rest) : Reads (Read.sum fuel) r ts e :=
  hs fuel r _ hfuel hr (.cons (by rw [hu]; decide)) (.cons (by rw [hu]; decide))

theorem reads_group {ts rest : List Token} {e : Expr α} {u : Token} {fuel : Nat} {r : Reader}
    (hs : AcceptsSum ts e) (hfuel : 10 * ts.length + 5 ≤ fuel) (hu : u.kind = .closing)
    (hr : r.ahead = ts ++ u :: rest) : Reads (Read.group fuel) r (ts ++ [u]) e := by
  obtain ⟨k, rfl⟩ : ∃ k, fuel = k + 1 := ⟨fuel - 1, by omega⟩
  rw [Read.group]
  refine (hs.closing (by omega) hu hr).bind fun r₁ hpass => ?_
  exact (Reads.expect (hpass.ahead_eq hr) (by rw [hu]; decide)).map

theorem accepts_group {t u : Token} {ts : List Token} {e : Expr α} (ht : t.kind = .opening)
    (hs : AcceptsSum ts e) (hu : u.kind = .closing) : AcceptsAtom (t :: ts ++ [u]) e where
  reads fuel r rest hfuel hr := by
    rw [List.length_append, List.length_cons, List.length_singleton] at hfuel
    rw [List.append_assoc, List.cons_append, List.singleton_append] at hr
    obtain ⟨k, rfl⟩ : ∃ k, fuel = k + 1 := ⟨fuel - 1, by omega⟩
    rw [Read.atom]
    refine (Reads.next hr).bind_cons fun r₁ hpass => ?_
    rw [ht]
    exact reads_group hs (by omega) hu (hpass.ahead_eq hr)
  inside _ := ⟨t, ts, u, rfl, ht, hu, hs⟩

theorem reads_name {t : Token} {ts rest : List Token} {e : Expr α} {fuel : Nat} {r : Reader}
    (h : NameMeans AcceptsApplication t.lexeme ts e) (hfuel : 10 * ts.length + 9 ≤ fuel)
    (hr : r.ahead = ts ++ rest) : Reads (Read.name fuel t) r ts e := by
  obtain ⟨k, rfl⟩ : ∃ k, fuel = k + 1 := ⟨fuel - 1, by omega⟩
  obtain ⟨a, htail, hfront⟩ := h
  have happly (start : Nat) (r₁ : Reader) :
      Reads (Read.applyFront a start (NameParts.ofName t.lexeme).front) r₁ [] e :=
    ⟨r₁, .refl r₁, applyFront_done_iff.mpr ⟨hfront, rfl⟩⟩
  rw [Read.name]
  cases hkind : (NameParts.ofName t.lexeme).tail with
  | constant c =>
    rw [hkind] at htail
    obtain ⟨rfl, rfl⟩ := htail
    exact happly _ r
  | «variable» c =>
    rw [hkind] at htail
    obtain ⟨rfl, rfl⟩ := htail
    have hregister : Reads (Read.register c) r [] () :=
      ⟨{ r with vars := r.vars.insert c }, ⟨rfl, rfl⟩, rfl⟩
    exact hregister.bind_nil fun r₁ _ => happly _ r₁
  | function f =>
    rw [hkind] at htail
    rw [← List.append_nil ts]
    exact (htail k _ r rest (by omega) hr).bind fun r₁ _ => happly _ r₁
  | unknown =>
    rw [hkind] at htail
    exact htail.elim

theorem accepts_name {t : Token} {ts : List Token} {e : Expr α} (ht : t.kind = .name)
    (h : NameMeans AcceptsApplication t.lexeme ts e) : AcceptsAtom (t :: ts) e where
  reads fuel r rest hfuel hr := by
    rw [List.length_cons] at hfuel
    rw [List.cons_append] at hr
    obtain ⟨k, rfl⟩ : ∃ k, fuel = k + 1 := ⟨fuel - 1, by omega⟩
    rw [Read.atom]
    refine (Reads.next hr).bind_cons fun r₁ hpass => ?_
    rw [ht]
    exact reads_name h (by omega) (hpass.ahead_eq hr)
  inside hopen := by
    simp [startsOpen, ht] at hopen

/-! ### Applications -/

omit [Numeral α] in
theorem reads_call {f : Callable} {as : List (Expr α)} {e : Expr α} (he : f.applied? as = some e)
    (span : Span) (r : Reader) : Reads (Read.call f as span) r [] e :=
  ⟨r, .refl r, call_done_iff.mpr ⟨he, rfl⟩⟩

/-- A function is applied to arguments in brackets. -/
theorem reads_arguments {f : Callable} {t u : Token} {ts rest : List Token} {as : List (Expr α)}
    {e : Expr α} {fuel : Nat} {span : Span} {r : Reader} (ht : t.kind = .opening)
    (has : AcceptsArgs ts as) (hu : u.kind = .closing) (he : f.applied? as = some e)
    (hfuel : 10 * ts.length + 6 ≤ fuel) (hr : r.ahead = t :: ts ++ [u] ++ rest) :
    Reads (Read.operand fuel f span) r (t :: ts ++ [u]) e := by
  obtain ⟨k, rfl⟩ : ∃ k, fuel = k + 1 := ⟨fuel - 1, by omega⟩
  rw [List.append_assoc, List.cons_append, List.singleton_append] at hr
  have hpeek : r.peek? = some .opening := by
    rw [Reader.peek?_eq_kind hr, ht]
  have hargs : Reads (Read.args (k + 1)) r (t :: ts ++ [u]) as := by
    rw [Read.args]
    refine (Reads.expect hr (by rw [ht]; decide)).bind_cons fun r₁ hpass => ?_
    exact has k r₁ u rest [] (by omega) hu (hpass.ahead_eq hr)
  rw [Read.operand, ← List.append_nil (t :: ts ++ [u])]
  refine Reads.get_bind ?_
  rw [if_pos hpeek]
  exact hargs.bind fun r₁ _ => Reads.get_bind (reads_call he _ r₁)

theorem accepts_arg {ts : List Token} {e : Expr α} (hs : AcceptsSum ts e) : AcceptsArgs ts [e] := by
  intro fuel r u rest read hfuel hu hr
  obtain ⟨k, rfl⟩ : ∃ k, fuel = k + 1 := ⟨fuel - 1, by omega⟩
  refine (hs.closing (by omega) hu hr).bind fun r₁ hpass => ?_
  rw [Read.moreArgs]
  refine (Reads.expect (hpass.ahead_eq hr) (by rw [hu]; decide)).bind_cons fun r₂ _ => ?_
  rw [if_pos hu, ← List.reverse_cons]
  exact .pure _ r₂

theorem accepts_args {t : Token} {ts us : List Token} {e : Expr α} {es : List (Expr α)}
    (hs : AcceptsSum ts e) (ht : t.kind = .comma) (has : AcceptsArgs us es) :
    AcceptsArgs (ts ++ t :: us) (e :: es) := by
  intro fuel r u rest read hfuel hu hr
  rw [List.length_append, List.length_cons] at hfuel
  rw [List.append_assoc, List.cons_append] at hr ⊢
  obtain ⟨k, rfl⟩ : ∃ k, fuel = k + 1 := ⟨fuel - 1, by omega⟩
  refine (hs (k + 1) r _ (by omega) hr (.cons (by rw [ht]; decide))
    (.cons (by rw [ht]; decide))).bind fun r₁ hpass => ?_
  have hr₁ := hpass.ahead_eq hr
  rw [Read.moreArgs]
  refine (Reads.expect hr₁ (by rw [ht]; decide)).bind_cons fun r₂ hpass => ?_
  rw [if_neg (by rw [ht]; decide)]
  have hrest := has k r₂ u rest (e :: read) (by omega) hu (hpass.ahead_eq hr₁)
  rwa [List.reverse_cons, List.append_assoc, List.singleton_append] at hrest

/-- Whatever its operand starts with, a function goes on to read it if that is no underscore. -/
theorem reads_application {f : Callable} {ts : List Token} {e : Expr α} {fuel : Nat} {span : Span}
    {r : Reader} (hpeek : r.peek? ≠ some .underscore)
    (h : ∀ r₁, Passes r [] r₁ → Reads (Read.operand fuel f span) r₁ ts e) :
    Reads (Read.application (fuel + 1) f span) r ts e := by
  by_cases hf : f = .log
  · subst hf
    rw [Read.application_log]
    exact (Reads.not_eat hpeek).bind_nil h
  · rw [Read.application_eq_operand hf]
    exact h r (.refl r)

theorem accepts_call {f : Callable} {t u : Token} {ts : List Token} {as : List (Expr α)}
    {e : Expr α} (ht : t.kind = .opening) (has : AcceptsArgs ts as) (hu : u.kind = .closing)
    (he : f.applied? as = some e) : AcceptsApplication f (t :: ts ++ [u]) e := by
  intro fuel span r rest hfuel hr
  rw [List.length_append, List.length_cons, List.length_singleton] at hfuel
  obtain ⟨k, rfl⟩ : ∃ k, fuel = k + 1 := ⟨fuel - 1, by omega⟩
  have hpeek : r.peek? ≠ some .underscore := by
    rw [Reader.peek?_eq_kind hr, ht]
    decide
  refine reads_application hpeek fun r₁ hpass => ?_
  exact reads_arguments ht has hu he (by omega) (hpass.ahead_eq_self hr)

theorem accepts_apply {f : Callable} {ts : List Token} {a e : Expr α} (h : Derives .atom ts a)
    (ha : AcceptsAtom ts a) (he : f.applied? [a] = some e) : AcceptsApplication f ts e := by
  intro fuel span r rest hfuel hr
  obtain ⟨k, rfl⟩ : ∃ k, fuel = k + 1 := ⟨fuel - 1, by omega⟩
  refine reads_application (h.peek_ne rfl hr rfl) fun r₁ hpass => ?_
  have hr₁ : r₁.ahead = ts ++ rest := hpass.ahead_eq_self hr
  by_cases hopen : startsOpen ts = true
  · -- an atom in brackets is read as the arguments of a call
    obtain ⟨t, us, u, rfl, ht, hu, hs⟩ := ha.inside hopen
    rw [List.length_append, List.length_cons, List.length_singleton] at hfuel
    exact reads_arguments ht (accepts_arg hs) hu he (by omega) hr₁
  · have hpeek : ¬r₁.peek? = some .opening := by
      obtain ⟨t, us, rfl⟩ := List.exists_cons_of_ne_nil (h.ne_nil rfl)
      rw [Reader.peek?_eq_kind hr₁]
      simpa [startsOpen] using hopen
    rw [Read.operand, ← List.append_nil ts]
    refine Reads.get_bind ?_
    rw [if_neg hpeek]
    exact (ha.reads k r₁ rest (by omega) hr₁).bind fun r₂ _ => reads_call he span r₂

theorem accepts_log {t u : Token} {ts us : List Token} {a b : Expr α} (ht : t.kind = .underscore)
    (hb : AcceptsAtom ts b) (hu : u.kind = .underscore) (ha : AcceptsAtom us a) :
    AcceptsApplication .log (t :: ts ++ u :: us) (Expr.log b a) := by
  intro fuel span r rest hfuel hr
  rw [List.length_append, List.length_cons, List.length_cons] at hfuel
  rw [List.append_assoc, List.cons_append, List.cons_append] at hr
  obtain ⟨k, rfl⟩ : ∃ k, fuel = k + 2 := ⟨fuel - 2, by omega⟩
  rw [Read.application_log, ← ht]
  refine (Reads.eat hr).bind_cons fun r₁ hpass => ?_
  have hr₁ := hpass.ahead_eq_tail hr
  rw [if_pos rfl, Read.logarithm, ← hu]
  refine (hb.reads k r₁ _ (by omega) hr₁).bind fun r₂ hpass => ?_
  have hr₂ := hpass.ahead_eq hr₁
  refine (Reads.eat hr₂).bind_cons fun r₃ hpass => ?_
  exact (ha.reads k r₃ rest (by omega) (hpass.ahead_eq hr₂)).map

theorem accepts_logGroup {t u v : Token} {ts us : List Token} {a b : Expr α}
    (ht : t.kind = .underscore) (hb : AcceptsAtom ts b) (hu : u.kind = .opening)
    (ha : AcceptsSum us a) (hv : v.kind = .closing) :
    AcceptsApplication .log (t :: ts ++ u :: us ++ [v]) (Expr.log b a) := by
  intro fuel span r rest hfuel hr
  rw [List.length_append, List.length_append, List.length_cons, List.length_cons,
    List.length_singleton] at hfuel
  rw [List.append_assoc, List.append_assoc, List.cons_append, List.cons_append,
    List.singleton_append] at hr
  obtain ⟨k, rfl⟩ : ∃ k, fuel = k + 2 := ⟨fuel - 2, by omega⟩
  rw [Read.application_log, ← ht, List.append_assoc]
  refine (Reads.eat hr).bind_cons fun r₁ hpass => ?_
  have hr₁ := hpass.ahead_eq_tail hr
  rw [if_pos rfl, Read.logarithm]
  refine (hb.reads k r₁ _ (by omega) hr₁).bind fun r₂ hpass => ?_
  have hr₂ := hpass.ahead_eq hr₁
  have hpeek : r₂.peek? ≠ some .underscore := by
    rw [Reader.peek?_eq_kind hr₂, hu]
    decide
  refine (Reads.not_eat hpeek).bind_nil fun r₃ hpass => ?_
  have hr₃ := hpass.ahead_eq_self hr₂
  refine (Reads.expect hr₃ (by rw [hu]; decide)).bind_cons fun r₄ hpass => ?_
  exact (reads_group ha (by omega) hv (hpass.ahead_eq hr₃)).map

/-! ### All phrases -/

/-- **The parser reads every phrase of the grammar.** -/
theorem accepts {p : Phrase} {ts : List Token} {x : p.Meaning α} (h : Derives p ts x) :
    Accepts p ts x := by
  induction h with
  | sum h hs ih ihs => exact accepts_sum h hs ih ihs
  | negatedSum ht h hs ih ihs => exact accepts_negatedSum ht h hs ih ihs
  | noTerms => exact accepts_noTerms
  | plus ht h hs ih ihs => exact accepts_plus ht h hs ih ihs
  | minus ht h hs ih ihs => exact accepts_minus ht h hs ih ihs
  | product h hs ih ihs => exact accepts_product h hs ih ihs
  | noFactors => exact accepts_noFactors
  | times ht h hs ih ihs => exact accepts_times ht h hs ih ihs
  | beside ht h hs ih ihs => exact accepts_beside ht h hs ih ihs
  | quotient h ih => exact accepts_quotient ih
  | fraction ha ht hb iha ihb => exact accepts_fraction iha ht ihb
  | power h ih => exact accepts_power h ih
  | raised ha ht hb iha ihb => exact accepts_raised ha iha ht ihb
  | negated ht h ih => exact accepts_negated ht ih
  | number ht hx => exact accepts_number ht hx
  | name ht h ih => exact accepts_name ht ih
  | group ht h hu ih => exact accepts_group ht ih hu
  | constant hc => exact .constant hc
  | letter hc => exact .letter hc
  | function h ih => exact .function ih
  | glued h he ih => exact .glued ih he
  | call ht has hu he ih => exact accepts_call ht ih hu he
  | apply ha he ih => exact accepts_apply ha ih he
  | log ht hb hu ha ihb iha => exact accepts_log ht ihb hu iha
  | logGroup ht hb hu ha hv ihb iha => exact accepts_logGroup ht ihb hu iha hv
  | arg h ih => exact accepts_arg ih
  | args h ht hs ih ihs => exact accepts_args ih ht ihs

end SymbolicAlgebra.Grammar
