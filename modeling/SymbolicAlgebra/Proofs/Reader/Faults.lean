import SymbolicAlgebra.Proofs.Grammar.Names
import SymbolicAlgebra.Proofs.Reader.Ends
import SymbolicAlgebra.Proofs.Text.Piece

/-! # The faults of a reader

A reader over a text holds pieces of the text, in the order of the text. Every fault that one of its
actions can fail with *fits* the text (`Fits`): its spans lie inside the text, and it is a number
that does not read only if a number among the tokens does not. By induction on the fuel, the parser
has no other faults (`fitting`). -/

namespace SymbolicAlgebra

/-- **A reader over a text**, with these tokens: they are pieces of the text, one after the other. -/
structure Reader.Over (text : List Char) (tokens : List Token) (r : Reader) : Prop where
  length : r.length = Text.bytes text
  tokens_eq : r.tokens = tokens
  pieces : ∀ t ∈ tokens, t.slice.PieceOf text
  ordered : tokens.Pairwise fun t u => t.slice.stop ≤ u.slice.start

/-- **A fault that fits a text** with these tokens. -/
structure Fault.Fits (α : Type) [Numeral α] (text : List Char) (tokens : List Token)
    (fault : Fault) : Prop where
  inside : ∀ s ∈ fault.spans, s.Inside text
  unread {lexeme : String} : fault.cause = .invalidNumber lexeme →
    ∃ t ∈ tokens, t.kind = .number ∧ (Numeral.read t.lexeme : Option α) = none

/-- The action ends well on the reader or fails with a fault that fits. -/
abbrev Read.Fits {β : Type} (α : Type) [Numeral α] (text : List Char) (tokens : List Token)
    (a : Read β) (r : Reader) : Prop :=
  (a r).Ends r (fun _ _ => True) (Fault.Fits α text tokens)

variable {α : Type} {text : List Char} {tokens : List Token} {r r' : Reader}

namespace Fault.Fits

variable [Numeral α] {span : Span} {cause : Cause}

/-- A fault at one span, other than a number that does not read. -/
theorem on (h : span.Inside text) (hcause : ∀ lexeme, cause ≠ .invalidNumber lexeme) :
    (Fault.on span cause).Fits α text tokens :=
  ⟨List.forall_mem_singleton.mpr h, fun heq => absurd heq (hcause _)⟩

end Fault.Fits

namespace Reader.Over

theorem advances (h : r.Over text tokens) (h' : Advances r r') : r'.Over text tokens :=
  ⟨h'.length.trans h.length, h'.tokens.trans h.tokens_eq, h.pieces, h.ordered⟩

theorem mem_of_behind (h : r.Over text tokens) {t : Token} (ht : t ∈ r.behind) : t ∈ tokens := by
  rw [← h.tokens_eq]
  exact List.mem_append_left _ (List.mem_reverse.mpr ht)

theorem mem_of_ahead (h : r.Over text tokens) {t : Token} (ht : t ∈ r.ahead) : t ∈ tokens := by
  rw [← h.tokens_eq]
  exact List.mem_append_right _ ht

theorem token_inside (h : r.Over text tokens) {t : Token} (ht : t ∈ tokens) : t.span.Inside text :=
  (h.pieces t ht).inside

/-- The next token or the end of the text. -/
theorem span_inside (h : r.Over text tokens) : r.span.Inside text := by
  unfold Reader.span
  split
  · next t ht => exact h.token_inside (h.mem_of_ahead (List.mem_of_head? ht))
  · rw [Reader.endSpan, h.length]
    exact .atEnd text

/-- The token read last is no earlier than any other token behind. -/
theorem stop_le_last (h : r.Over text tokens) {t last : Token} (ht : t ∈ r.behind)
    (hlast : r.previous? = some last) : t.slice.stop ≤ last.slice.stop := by
  obtain ⟨earlier, hbehind⟩ : ∃ earlier, r.behind = last :: earlier := by
    unfold Reader.previous? at hlast
    exact ⟨r.behind.tail, (List.cons_head?_tail hlast).symm⟩
  have hordered := h.ordered
  rw [← h.tokens_eq, Reader.tokens, List.pairwise_append, List.pairwise_reverse, hbehind] at hordered
  rw [hbehind] at ht
  rcases List.mem_cons.mp ht with rfl | ht
  · exact Nat.le_refl _
  · have hstart : t.slice.stop ≤ last.slice.start :=
      (List.pairwise_cons.mp hordered.1).1 t ht
    exact hstart.trans (Nat.le_add_right _ _)

variable [Numeral α]

theorem fits_end (h : r.Over text tokens) : (Fault.on r.span .unexpectedEnd).Fits α text tokens :=
  .on h.span_inside (by simp)

theorem fits_unexpected (h : r.Over text tokens) {t : Token} (ht : t ∈ tokens)
    (kinds : List TokenKind) : (Read.unexpected kinds t).Fits α text tokens := by
  unfold Read.unexpected
  split_ifs <;> exact .on (h.token_inside ht) (by simp)

end Reader.Over

/-! ### Names -/

/-- The functions in front of a name and its tail are the whole name. -/
theorem NameParts.text_split : ∀ (fuel : Nat) (name : List Char),
    name = (split fuel name).front.flatMap (fun f => f.name.toList) ++ (split fuel name).text
  | 0, _ => rfl
  | fuel + 1, name => by
    rcases hwhole : whole? name with _ | tail
    · rcases hprefix : Callable.ofPrefix? name with _ | f
      · rw [Grammar.split_unknown hwhole hprefix]
        rfl
      · have hrest := text_split fuel (name.drop f.name.length)
        rw [Grammar.split_front hwhole hprefix, List.flatMap_cons, List.append_assoc, ← hrest]
        exact Grammar.eq_append_of_ofPrefix? hprefix
    · rw [Grammar.split_whole hwhole]
      rfl

/-- Names of functions are in ASCII. -/
theorem Callable.bytes_name (f : Callable) : Text.bytes f.name.toList = f.name.length := by
  cases f with
  | trig kind => cases kind <;> rfl
  | bracket kind => cases kind <;> rfl
  | _ => rfl

namespace Read

variable [Scalar α] [Numeral α]

omit [Scalar α] in
theorem number_ends {t : Token} (hr : r.Over text tokens) (ht : t ∈ tokens)
    (hkind : t.kind = .number) :
    Read.Fits α text tokens (number (α := α) t) r := by
  unfold number
  rcases hread : (Numeral.read t.lexeme : Option α) with _ | x
  · exact fail_ends ⟨List.forall_mem_singleton.mpr (hr.token_inside ht),
      fun _ => ⟨t, ht, hkind, hread⟩⟩
  · exact pure_ends trivial

theorem call_ends {f : Callable} {as : List (Expr α)} {span : Span} (h : span.Inside text) :
    Read.Fits α text tokens (call f as span) r := by
  unfold call
  rcases f.applied? as with _ | e
  · exact fail_ends (.on h (by simp))
  · exact pure_ends trivial

/-- Functions in front of a name are called at the places of their own letters. -/
theorem applyFront_ends {a : Expr α} : ∀ {front : List Callable} {s : Slice} {rest : List Char}
    {r : Reader}, s.PieceOf text →
      s.text = front.flatMap (fun f => f.name.toList) ++ rest →
      Read.Fits α text tokens (applyFront a s.start front) r
  | [], _, _, _, _, _ => pure_ends trivial
  | f :: front, s, rest, r, hs, htext => by
    rw [List.flatMap_cons, List.append_assoc] at htext
    have hname := hs.front htext
    have hrest := hs.back htext
    have hspan := hname.inside
    rw [Slice.span, Slice.stop, Callable.bytes_name] at hspan
    rw [Callable.bytes_name] at hrest
    exact bind_ends (applyFront_ends hrest rfl) fun _ _ _ _ => call_ends hspan

end Read

/-! ### The parser -/

/-- **Actions with this fuel fail with faults that fit.** A function is applied at a span inside the
text that starts within a token behind. -/
structure Fitting (α : Type) [Scalar α] [Numeral α] (text : List Char) (tokens : List Token)
    (fuel : Nat) : Prop where
  sum {r : Reader} : r.Over text tokens →
    Read.Fits α text tokens (Read.sum (α := α) fuel) r
  terms {r : Reader} {read : List (Expr α)} : r.Over text tokens →
    Read.Fits α text tokens (Read.terms fuel read) r
  product {r : Reader} : r.Over text tokens →
    Read.Fits α text tokens (Read.product (α := α) fuel) r
  factors {r : Reader} {read : List (Expr α)} : r.Over text tokens →
    Read.Fits α text tokens (Read.factors fuel read) r
  quotient {r : Reader} : r.Over text tokens →
    Read.Fits α text tokens (Read.quotient (α := α) fuel) r
  power {r : Reader} : r.Over text tokens →
    Read.Fits α text tokens (Read.power (α := α) fuel) r
  atom {r : Reader} : r.Over text tokens →
    Read.Fits α text tokens (Read.atom (α := α) fuel) r
  group {r : Reader} : r.Over text tokens →
    Read.Fits α text tokens (Read.group (α := α) fuel) r
  args {r : Reader} : r.Over text tokens →
    Read.Fits α text tokens (Read.args (α := α) fuel) r
  moreArgs {r : Reader} {read : List (Expr α)} : r.Over text tokens →
    Read.Fits α text tokens (Read.moreArgs fuel read) r
  name {r : Reader} {t : Token} : r.Over text tokens → t ∈ r.behind →
    Read.Fits α text tokens (Read.name (α := α) fuel t) r
  application {r : Reader} {f : Callable} {span : Span} {t : Token} : r.Over text tokens →
    span.Inside text → t ∈ r.behind → span.start ≤ t.slice.stop →
    Read.Fits α text tokens (Read.application (α := α) fuel f span) r
  logarithm {r : Reader} : r.Over text tokens →
    Read.Fits α text tokens (Read.logarithm (α := α) fuel) r

section Steps
variable [Scalar α] [Numeral α] {fuel : Nat} (hs : Fitting α text tokens fuel)
  (hr : r.Over text tokens)
include hs hr

open Read

theorem sum_fits :
    Read.Fits α text tokens (Read.sum (α := α) (fuel + 1)) r := by
  rw [Read.sum]
  refine bind_ends (eat_ends _) fun minus r₁ h₁ _ => ?_
  cases minus with
  | true =>
    exact bind_ends (hs.product (hr.advances h₁)) fun _ _ h₂ _ =>
      hs.terms ((hr.advances h₁).advances h₂)
  | false =>
    exact bind_ends (hs.product (hr.advances h₁)) fun _ _ h₂ _ =>
      hs.terms ((hr.advances h₁).advances h₂)

theorem terms_fits {read : List (Expr α)} :
    Read.Fits α text tokens (Read.terms (fuel + 1) read) r := by
  rw [Read.terms]
  refine bind_ends (eat_ends _) fun plus r₁ h₁ _ => ?_
  have hr₁ := hr.advances h₁
  cases plus with
  | true =>
    exact bind_ends (hs.product hr₁) fun _ _ h₂ _ => hs.terms (hr₁.advances h₂)
  | false =>
    refine bind_ends (eat_ends _) fun minus r₂ h₂ _ => ?_
    have hr₂ := hr₁.advances h₂
    cases minus with
    | true => exact bind_ends (hs.product hr₂) fun _ _ h₃ _ => hs.terms (hr₂.advances h₃)
    | false => exact pure_ends trivial

theorem product_fits :
    Read.Fits α text tokens (Read.product (α := α) (fuel + 1)) r := by
  rw [Read.product]
  exact bind_ends (hs.quotient hr) fun _ _ h₁ _ => hs.factors (hr.advances h₁)

theorem factors_fits {read : List (Expr α)} :
    Read.Fits α text tokens (Read.factors (fuel + 1) read) r := by
  rw [Read.factors]
  refine bind_ends (eat_ends _) fun times r₁ h₁ _ => get_bind_ends ?_
  have hr₁ := hr.advances h₁
  split_ifs
  · exact bind_ends (hs.quotient hr₁) fun _ _ h₂ _ => hs.factors (hr₁.advances h₂)
  · exact pure_ends trivial

theorem quotient_fits :
    Read.Fits α text tokens (Read.quotient (α := α) (fuel + 1)) r := by
  rw [Read.quotient]
  refine bind_ends (hs.power hr) fun _ r₁ h₁ _ => bind_ends (eat_ends _) fun slash r₂ h₂ _ => ?_
  cases slash with
  | true =>
    exact bind_ends (hs.quotient ((hr.advances h₁).advances h₂)) fun _ _ _ _ => pure_ends trivial
  | false => exact pure_ends trivial

theorem power_fits :
    Read.Fits α text tokens (Read.power (α := α) (fuel + 1)) r := by
  rw [Read.power]
  refine bind_ends (eat_ends _) fun minus r₁ h₁ _ => ?_
  have hr₁ := hr.advances h₁
  cases minus with
  | true => exact bind_ends (hs.power hr₁) fun _ _ _ _ => pure_ends trivial
  | false =>
    refine bind_ends (hs.atom hr₁) fun _ r₂ h₂ _ => bind_ends (eat_ends _) fun caret r₃ h₃ _ => ?_
    cases caret with
    | true =>
      exact bind_ends (hs.power ((hr₁.advances h₂).advances h₃)) fun _ _ _ _ => pure_ends trivial
    | false => exact pure_ends trivial

theorem atom_fits :
    Read.Fits α text tokens (Read.atom (α := α) (fuel + 1)) r := by
  rw [Read.atom]
  refine bind_ends (next_ends fun _ => hr.fits_end) fun t r₁ h₁ hbehind => ?_
  have hr₁ := hr.advances h₁
  have ht : t ∈ r₁.behind := hbehind ▸ List.mem_cons_self
  cases hkind : t.kind with
  | number => exact number_ends hr₁ (hr₁.mem_of_behind ht) hkind
  | name => exact hs.name hr₁ ht
  | opening => exact hs.group hr₁
  | _ => exact fail_ends (hr₁.fits_unexpected (hr₁.mem_of_behind ht) _)

theorem group_fits :
    Read.Fits α text tokens (Read.group (α := α) (fuel + 1)) r := by
  rw [Read.group]
  refine bind_ends (hs.sum hr) fun _ r₁ h₁ _ => ?_
  have hr₁ := hr.advances h₁
  exact bind_ends (expect_ends (fun _ => hr₁.fits_end) fun t ht =>
    hr₁.fits_unexpected (hr₁.mem_of_ahead ht) _) fun _ _ _ _ => pure_ends trivial

theorem args_fits :
    Read.Fits α text tokens (Read.args (α := α) (fuel + 1)) r := by
  rw [Read.args]
  refine bind_ends (expect_ends (fun _ => hr.fits_end) fun t ht =>
    hr.fits_unexpected (hr.mem_of_ahead ht) _) fun _ r₁ h₁ _ => ?_
  have hr₁ := hr.advances h₁
  exact bind_ends (hs.sum hr₁) fun _ _ h₂ _ => hs.moreArgs (hr₁.advances h₂)

theorem moreArgs_fits {read : List (Expr α)} :
    Read.Fits α text tokens (Read.moreArgs (fuel + 1) read) r := by
  rw [Read.moreArgs]
  refine bind_ends (expect_ends (fun _ => hr.fits_end) fun t ht =>
    hr.fits_unexpected (hr.mem_of_ahead ht) _) fun t r₁ h₁ _ => ?_
  have hr₁ := hr.advances h₁
  split_ifs
  · exact pure_ends trivial
  · exact bind_ends (hs.sum hr₁) fun _ _ h₂ _ => hs.moreArgs (hr₁.advances h₂)

theorem name_fits {t : Token} (ht : t ∈ r.behind) :
    Read.Fits α text tokens (Read.name (α := α) (fuel + 1) t) r := by
  have hpiece := hr.pieces t (hr.mem_of_behind ht)
  have htext : t.slice.text = _ := NameParts.text_split t.lexeme.length t.lexeme
  have hfront {a : Expr α} {r' : Reader} :
      Read.Fits α text tokens
        (applyFront a t.span.start (NameParts.ofName t.lexeme).front) r' :=
    applyFront_ends hpiece htext
  have htail := hpiece.inside_back htext
  have hstart := Nat.sub_le t.span.stop (Text.bytes (NameParts.ofName t.lexeme).text)
  rw [Read.name]
  cases (NameParts.ofName t.lexeme).tail with
  | constant c => exact hfront
  | «variable» c => exact bind_ends (register_ends c) fun _ _ _ _ => hfront
  | function f =>
    exact bind_ends (hs.application hr htail ht hstart) fun _ _ _ _ => hfront
  | unknown => exact fail_ends (.on htail (by simp))

/-- A function is called at a span from the start of its name to the end of the token read last. -/
theorem operand_fits {f : Callable} {span : Span} {t : Token} (hspan : span.Inside text)
    (ht : t ∈ r.behind) (hstart : span.start ≤ t.slice.stop) :
    Read.Fits α text tokens (Read.operand (α := α) fuel f span) r := by
  refine get_bind_ends ?_
  split_ifs
  · refine bind_ends (hs.args hr) fun given r₁ h₁ _ => get_bind_ends (call_ends ?_)
    have hr₁ := hr.advances h₁
    rcases hlast : r₁.previous? with _ | last
    · exact hspan
    · have hmem : last ∈ r₁.behind := List.mem_of_head? hlast
      have hle := hr₁.stop_le_last (h₁.mem_behind ht) hlast
      exact hspan.hull (hr₁.token_inside (hr₁.mem_of_behind hmem)) (hstart.trans hle)
  · exact bind_ends (hs.atom hr) fun _ _ _ _ => call_ends hspan

theorem application_fits {f : Callable} {span : Span} {t : Token} (hspan : span.Inside text)
    (ht : t ∈ r.behind) (hstart : span.start ≤ t.slice.stop) :
    Read.Fits α text tokens (Read.application (α := α) (fuel + 1) f span) r := by
  by_cases hf : f = .log
  · subst hf
    rw [Read.application_log]
    refine bind_ends (eat_ends _) fun underscore r₁ h₁ _ => ?_
    cases underscore with
    | true => exact hs.logarithm (hr.advances h₁)
    | false => exact operand_fits hs (hr.advances h₁) hspan (h₁.mem_behind ht) hstart
  · rw [Read.application_eq_operand hf]
    exact operand_fits hs hr hspan ht hstart

theorem logarithm_fits :
    Read.Fits α text tokens (Read.logarithm (α := α) (fuel + 1)) r := by
  rw [Read.logarithm]
  refine bind_ends (hs.atom hr) fun _ r₁ h₁ _ => bind_ends (eat_ends _) fun underscore r₂ h₂ _ => ?_
  have hr₂ := (hr.advances h₁).advances h₂
  cases underscore with
  | true => exact bind_ends (hs.atom hr₂) fun _ _ _ _ => pure_ends trivial
  | false =>
    refine bind_ends (expect_ends (fun _ => hr₂.fits_end) fun t ht =>
      hr₂.fits_unexpected (hr₂.mem_of_ahead ht) _) fun _ r₃ h₃ _ => ?_
    exact bind_ends (hs.group (hr₂.advances h₃)) fun _ _ _ _ => pure_ends trivial

end Steps

/-- **Every fault of the parser fits the text**, with any fuel. -/
theorem fitting (α : Type) [Scalar α] [Numeral α] (text : List Char) (tokens : List Token) :
    ∀ fuel : Nat, Fitting α text tokens fuel
  | 0 =>
    { sum := fun _ => trivial
      terms := fun _ => trivial
      product := fun _ => trivial
      factors := fun _ => trivial
      quotient := fun _ => trivial
      power := fun _ => trivial
      atom := fun _ => trivial
      group := fun _ => trivial
      args := fun _ => trivial
      moreArgs := fun _ => trivial
      name := fun _ _ => trivial
      application := fun _ _ _ _ => trivial
      logarithm := fun _ => trivial }
  | fuel + 1 =>
    { sum := sum_fits (fitting α text tokens fuel)
      terms := fun hr => terms_fits (fitting α text tokens fuel) hr
      product := product_fits (fitting α text tokens fuel)
      factors := fun hr => factors_fits (fitting α text tokens fuel) hr
      quotient := quotient_fits (fitting α text tokens fuel)
      power := power_fits (fitting α text tokens fuel)
      atom := atom_fits (fitting α text tokens fuel)
      group := group_fits (fitting α text tokens fuel)
      args := args_fits (fitting α text tokens fuel)
      moreArgs := fun hr => moreArgs_fits (fitting α text tokens fuel) hr
      name := fun hr ht => name_fits (fitting α text tokens fuel) hr ht
      application := fun hr hspan ht hstart =>
        application_fits (fitting α text tokens fuel) hr hspan ht hstart
      logarithm := logarithm_fits (fitting α text tokens fuel) }

end SymbolicAlgebra
