import Mathlib.Data.List.Chain
import SymbolicAlgebra.Proofs.Grammar.Complete
import SymbolicAlgebra.Proofs.Reader.EmptyPairs

/-! # Phrases pass the checks before reading

The checks before reading refuse nothing that the grammar derives: a sum has at least one token, no
symbol, a partner for every bracket, and no operators side by side but those that the grammar allows
(`Derives.fault?_eq_none`). Neither does a sum lose a token when layout and empty pairs of brackets
are removed (`Derives.dropLayout_eq`, `Derives.dropEmptyPairs_eq`). All this follows from what every
phrase is, `Tidy`. -/

namespace SymbolicAlgebra.Grammar

open Reader (bracketFault? operatorFault?)

/-- Whether a token of the second kind may stand right after one of the first kind in a phrase. -/
def MayFollow (t u : Token) : Prop :=
  (t.kind.isOperator = true → u.kind.isOperator = true → Reader.mayFollow t.kind u.kind = true) ∧
    (t.kind = .opening → u.kind ≠ .closing)

/-- Whether an operand can end with this token. -/
def EndsOperand (t : Token) : Prop := t.kind = .number ∨ t.kind = .name ∨ t.kind = .closing

/-- Whether a signed operand can start with this token. -/
def StartsSigned (t : Token) : Prop := t.kind.startsOperand = true ∨ t.kind = .minus

theorem EndsOperand.mayFollow {t : Token} (h : EndsOperand t) (u : Token) : MayFollow t u := by
  rcases h with h | h | h <;> simp [MayFollow, h, TokenKind.isOperator]

/-- **A row of tokens without faults**: no layout, no symbols, no pair of tokens side by side that
may not be, a partner for each bracket, and an operand at its end, if it has one. -/
structure Tidy (ts : List Token) : Prop where
  chain : ts.IsChain MayFollow
  last : ∀ t ∈ ts.getLast?, EndsOperand t
  kinds : ∀ t ∈ ts, t.kind ≠ .layout ∧ t.kind ≠ .symbol
  balanced (stack rest : List Token) : bracketFault? stack (ts ++ rest) = bracketFault? stack rest

/-! ### Tidy rows -/

theorem bracketFault?_cons {t : Token} (h : t.kind ≠ .opening) (h' : t.kind ≠ .closing)
    (stack rest : List Token) : bracketFault? stack (t :: rest) = bracketFault? stack rest := by
  cases hkind : t.kind <;> first
    | exact absurd hkind h
    | exact absurd hkind h'
    | (cases stack <;> simp only [bracketFault?, hkind])

theorem bracketFault?_opening {t : Token} (h : t.kind = .opening) (stack rest : List Token) :
    bracketFault? stack (t :: rest) = bracketFault? (t :: stack) rest := by
  cases stack <;> simp only [bracketFault?, h]

theorem bracketFault?_closing {t u : Token} (h : u.kind = .closing) (stack rest : List Token) :
    bracketFault? (t :: stack) (u :: rest) = bracketFault? stack rest := by
  simp only [bracketFault?, h]

namespace Tidy

theorem nil : Tidy [] := ⟨.nil, by simp, by simp, fun _ _ => rfl⟩

theorem append {ts us : List Token} (h : Tidy ts) (h' : Tidy us) : Tidy (ts ++ us) where
  chain := h.chain.append h'.chain fun t ht u _ => (h.last t ht).mayFollow u
  last t ht := by
    rw [List.getLast?_append] at ht
    rcases hlast : us.getLast? with _ | u
    · rw [hlast] at ht
      exact h.last t ht
    · rw [hlast] at ht
      exact h'.last t (hlast ▸ ht)
  kinds := List.forall_mem_append.mpr ⟨h.kinds, h'.kinds⟩
  balanced stack rest := by rw [List.append_assoc, h.balanced, h'.balanced]

/-- A token that is no bracket, in front of a row with which it may stand. -/
theorem cons {t u : Token} {us : List Token} (h : Tidy (u :: us)) (hfollow : MayFollow t u)
    (hopening : t.kind ≠ .opening) (hclosing : t.kind ≠ .closing)
    (hkinds : t.kind ≠ .layout ∧ t.kind ≠ .symbol) : Tidy (t :: u :: us) where
  chain := List.isChain_cons_cons.mpr ⟨hfollow, h.chain⟩
  last v hv := h.last v (by rwa [List.getLast?_cons_cons] at hv)
  kinds := List.forall_mem_cons.mpr ⟨hkinds, h.kinds⟩
  balanced stack rest := by
    rw [List.cons_append, bracketFault?_cons hopening hclosing, h.balanced]

/-- An operand alone. -/
theorem singleton {t : Token} (h : t.kind = .number ∨ t.kind = .name) : Tidy [t] where
  chain := .singleton t
  last u hu := by
    rw [List.getLast?_singleton, Option.mem_some_iff] at hu
    rw [← hu]
    exact h.imp id .inl
  kinds := by
    rw [List.forall_mem_singleton]
    rcases h with h | h <;> rw [h] <;> decide
  balanced stack rest := by
    rw [List.singleton_append]
    refine bracketFault?_cons ?_ ?_ stack rest <;> rcases h with h | h <;> rw [h] <;> decide

/-- A row in brackets. -/
theorem brackets {t u : Token} {ts : List Token} (ht : t.kind = .opening) (hu : u.kind = .closing)
    (h : Tidy ts) (hne : ts ≠ []) (hstart : ∀ v ∈ ts.head?, v.kind ≠ .closing) :
    Tidy (t :: ts ++ [u]) where
  chain := by
    have hts : (t :: ts).IsChain MayFollow := by
      refine List.isChain_cons.mpr ⟨fun v hv => ⟨?_, fun _ => hstart v hv⟩, h.chain⟩
      rw [ht]
      exact fun hop => absurd hop (by decide)
    refine hts.append (.singleton u) fun v hv w _ => ?_
    obtain ⟨v', us, rfl⟩ := List.exists_cons_of_ne_nil hne
    rw [List.getLast?_cons_cons] at hv
    exact (h.last v hv).mayFollow w
  last v hv := by
    rw [List.getLast?_concat, Option.mem_some_iff] at hv
    rw [← hv]
    exact .inr (.inr hu)
  kinds := by
    refine List.forall_mem_append.mpr ⟨List.forall_mem_cons.mpr ⟨?_, h.kinds⟩, ?_⟩
    · rw [ht]
      decide
    · rw [List.forall_mem_singleton, hu]
      decide
  balanced stack rest := by
    rw [List.append_assoc, List.cons_append, bracketFault?_opening ht, h.balanced,
      List.singleton_append, bracketFault?_closing hu]

/-- An operator or separator in front of a row that starts with an operand. -/
theorem cons_operand {t : Token} {ts : List Token} (h : Tidy ts)
    (hstart : ∃ u us, ts = u :: us ∧ u.kind.startsOperand = true)
    (ht : t.kind.isOperator = true ∨ t.kind = .comma ∨ t.kind = .underscore) :
    Tidy (t :: ts) := by
  obtain ⟨u, us, rfl, hu⟩ := hstart
  have hoperator : u.kind.isOperator = false := by
    revert hu
    cases u.kind <;> decide
  have hkind : t.kind ≠ .opening ∧ t.kind ≠ .closing ∧ t.kind ≠ .layout ∧ t.kind ≠ .symbol := by
    revert ht
    cases t.kind <;> decide
  refine h.cons ⟨fun _ hop => ?_, fun hopening => absurd hopening hkind.1⟩ hkind.1 hkind.2.1
    hkind.2.2
  rw [hoperator] at hop
  cases hop

/-- A separator, or an operator that a minus may follow, in front of a signed operand. -/
theorem cons_signed {t : Token} {ts : List Token} (h : Tidy ts)
    (hstart : ∃ u us, ts = u :: us ∧ StartsSigned u)
    (ht : t.kind = .times ∨ t.kind = .slash ∨ t.kind = .caret ∨ t.kind = .comma) :
    Tidy (t :: ts) := by
  obtain ⟨u, us, rfl, hu⟩ := hstart
  have hkind : t.kind ≠ .opening ∧ t.kind ≠ .closing ∧ t.kind ≠ .layout ∧ t.kind ≠ .symbol := by
    revert ht
    cases t.kind <;> decide
  have hfollow : t.kind.isOperator = true → u.kind.isOperator = true →
      Reader.mayFollow t.kind u.kind = true := by
    revert ht hu
    rw [StartsSigned]
    cases t.kind <;> cases u.kind <;> decide
  exact h.cons ⟨hfollow, fun hopening => absurd hopening hkind.1⟩ hkind.1 hkind.2.1 hkind.2.2

/-- A name in front of what completes it. -/
theorem cons_name {t : Token} {ts : List Token} (h : Tidy ts) (ht : t.kind = .name) :
    Tidy (t :: ts) :=
  append (singleton (.inr ht)) h

end Tidy

/-! ### Phrases are tidy -/

variable {α : Type} [Scalar α] [Numeral α]

/-- The kinds of phrases that start with an operand, or with a minus in front of one. -/
def Phrase.startsSigned : Phrase → Bool
  | sum => true
  | product => true
  | quotient _ => true
  | power _ => true
  | atom => true
  | args => true
  | _ => false

theorem Derives.startsSigned {p : Phrase} {ts : List Token} {x : p.Meaning α} (h : Derives p ts x)
    (hp : p.startsSigned = true) : ∃ t us, ts = t :: us ∧ StartsSigned t := by
  induction h with
  | sum h hs ih _ =>
    obtain ⟨t, us, rfl, ht⟩ := ih rfl
    exact ⟨t, _, rfl, ht⟩
  | negatedSum ht => exact ⟨_, _, rfl, .inr ht⟩
  | product h hs ih _ =>
    obtain ⟨t, us, rfl, ht⟩ := ih rfl
    exact ⟨t, _, rfl, ht⟩
  | quotient h ih => exact ih rfl
  | fraction ha ht hb ih _ =>
    obtain ⟨t, us, rfl, ht⟩ := ih rfl
    exact ⟨t, _, rfl, ht⟩
  | power h ih => exact ih rfl
  | raised ha ht hb ih _ =>
    obtain ⟨t, us, rfl, ht⟩ := ih rfl
    exact ⟨t, _, rfl, ht⟩
  | negated ht => exact ⟨_, _, rfl, .inr ht⟩
  | number ht => exact ⟨_, _, rfl, .inl (by rw [ht]; rfl)⟩
  | name ht => exact ⟨_, _, rfl, .inl (by rw [ht]; rfl)⟩
  | group ht => exact ⟨_, _, rfl, .inl (by rw [ht]; rfl)⟩
  | arg h ih => exact ih rfl
  | args h ht hs ih _ =>
    obtain ⟨t, us, rfl, ht⟩ := ih rfl
    exact ⟨t, _, rfl, ht⟩
  | _ => simp [Phrase.startsSigned] at hp

theorem StartsSigned.not_closing {ts : List Token} (h : ∃ t us, ts = t :: us ∧ StartsSigned t) :
    ts ≠ [] ∧ ∀ v ∈ ts.head?, v.kind ≠ .closing := by
  obtain ⟨t, us, rfl, ht⟩ := h
  refine ⟨List.cons_ne_nil t us, fun v hv hclosing => ?_⟩
  rw [List.head?_cons, Option.mem_some_iff] at hv
  rw [StartsSigned, hv, hclosing] at ht
  revert ht
  decide

/-- **Every phrase is tidy.** -/
theorem Derives.tidy {p : Phrase} {ts : List Token} {x : p.Meaning α} (h : Derives p ts x) :
    Tidy ts := by
  induction h with
  | sum _ _ ih ihs => exact ih.append ihs
  | negatedSum ht h _ ih ihs =>
    exact (ih.cons_operand (h.startsOperand rfl) (.inl (by rw [ht]; rfl))).append ihs
  | noTerms => exact .nil
  | plus ht h _ ih ihs =>
    exact (ih.cons_operand (h.startsOperand rfl) (.inl (by rw [ht]; rfl))).append ihs
  | minus ht h _ ih ihs =>
    exact (ih.cons_operand (h.startsOperand rfl) (.inl (by rw [ht]; rfl))).append ihs
  | product _ _ ih ihs => exact ih.append ihs
  | noFactors => exact .nil
  | times ht h _ ih ihs => exact (ih.cons_signed (h.startsSigned rfl) (.inl ht)).append ihs
  | beside _ _ _ ih ihs => exact ih.append ihs
  | quotient _ ih => exact ih
  | fraction _ ht hb iha ihb =>
    exact iha.append (ihb.cons_signed (hb.startsSigned rfl) (.inr (.inl ht)))
  | power _ ih => exact ih
  | raised _ ht hb iha ihb =>
    exact iha.append (ihb.cons_signed (hb.startsSigned rfl) (.inr (.inr (.inl ht))))
  | negated ht h ih => exact ih.cons_operand (h.startsOperand rfl) (.inl (by rw [ht]; rfl))
  | number ht _ => exact .singleton (.inl ht)
  | name ht _ ih => exact ih.cons_name ht
  | group ht h hu ih =>
    obtain ⟨hne, hstart⟩ := StartsSigned.not_closing (h.startsSigned rfl)
    exact ih.brackets ht hu hne hstart
  | constant _ => exact .nil
  | letter _ => exact .nil
  | function _ ih => exact ih
  | glued _ _ ih => exact ih
  | call ht h hu _ ih =>
    obtain ⟨hne, hstart⟩ := StartsSigned.not_closing (h.startsSigned rfl)
    exact ih.brackets ht hu hne hstart
  | apply _ _ ih => exact ih
  | log ht hb hu ha ihb iha =>
    exact (ihb.cons_operand (hb.startsOperand rfl) (.inr (.inr ht))).append
      (iha.cons_operand (ha.startsOperand rfl) (.inr (.inr hu)))
  | logGroup ht hb hu ha hv ihb iha =>
    obtain ⟨hne, hstart⟩ := StartsSigned.not_closing (ha.startsSigned rfl)
    rw [List.append_assoc]
    exact (ihb.cons_operand (hb.startsOperand rfl) (.inr (.inr ht))).append
      (iha.brackets hu hv hne hstart)
  | arg _ ih => exact ih
  | args _ ht hs ih ihs =>
    exact ih.append (ihs.cons_signed (hs.startsSigned rfl) (.inr (.inr (.inr ht))))

/-! ### The checks before reading -/

theorem operatorFault?_eq_none :
    ∀ {ts : List Token}, ts.IsChain MayFollow → operatorFault? ts = none
  | [], _ => rfl
  | [t], _ => rfl
  | t :: u :: us, h => by
    obtain ⟨hfollow, hrest⟩ := List.isChain_cons_cons.mp h
    rw [operatorFault?, if_neg]
    · exact operatorFault?_eq_none hrest
    · simp only [Bool.and_eq_true, Bool.not_eq_true', not_and, Bool.not_eq_false]
      exact fun hop => hfollow.1 hop.1 hop.2

/-- **The checks refuse nothing that the grammar derives.** -/
theorem Derives.fault?_eq_none {ts : List Token} {e : Expr α} (h : Derives .sum ts e)
    (length : Nat) : Reader.fault? length ts = none := by
  obtain ⟨hchain, _, hkinds, hbalanced⟩ := h.tidy
  have hempty : Reader.emptyFault? length ts = none := by
    rw [Reader.emptyFault?, List.isEmpty_eq_false_iff.mpr (h.ne_nil rfl)]
    rfl
  have hsymbol : Reader.symbolFault? ts = none := by
    rw [Reader.symbolFault?, Option.map_eq_none_iff, List.find?_eq_none]
    intro t ht
    simpa using (hkinds t ht).2
  have hbracket : bracketFault? [] ts = none := by
    rw [← List.append_nil ts, hbalanced]
    rfl
  rw [Reader.fault?, hempty, hsymbol, hbracket, operatorFault?_eq_none hchain]
  rfl

theorem Derives.dropLayout_eq {p : Phrase} {ts : List Token} {x : p.Meaning α}
    (h : Derives p ts x) : Reader.dropLayout ts = ts := by
  rw [Reader.dropLayout, List.filter_eq_self]
  intro t ht
  simpa using (h.tidy.kinds t ht).1

theorem Derives.dropEmptyPairs_eq {p : Phrase} {ts : List Token} {x : p.Meaning α}
    (h : Derives p ts x) : Reader.dropEmptyPairs ts = ts :=
  Reader.dropEmptyPairs_normal (Reader.normal_iff.mpr (h.tidy.chain.imp fun _ _ h => h.2))

end SymbolicAlgebra.Grammar
