import Mathlib.Data.List.Forall2
import SymbolicAlgebra.Proofs.Grammar.Derivation

/-! # Tokens that read alike

The grammar looks at the kinds of tokens, and at the characters of numbers and names only. So a row
of tokens can be replaced by one that is alike, token by token, in any derivation
(`Derives.congr`). -/

namespace SymbolicAlgebra.Grammar

/-- Two tokens of one kind, and with the same characters if they are numbers or names. -/
structure Alike (t u : Token) : Prop where
  kind_eq : t.kind = u.kind
  lexeme_eq : u.kind = .number ∨ u.kind = .name → t.lexeme = u.lexeme

/-- Rows of tokens that are alike one by one. -/
abbrev AllAlike : List Token → List Token → Prop := List.Forall₂ Alike

namespace AllAlike

theorem of_append {vs ts us : List Token} (h : AllAlike vs (ts ++ us)) :
    ∃ ts' us', vs = ts' ++ us' ∧ AllAlike ts' ts ∧ AllAlike us' us :=
  ⟨vs.take ts.length, vs.drop ts.length, (List.take_append_drop _ vs).symm,
    List.forall₂_take_append _ _ _ h, List.forall₂_drop_append _ _ _ h⟩

theorem of_cons {vs us : List Token} {t : Token} (h : AllAlike vs (t :: us)) :
    ∃ t' us', vs = t' :: us' ∧ Alike t' t ∧ AllAlike us' us := by
  obtain ⟨t', us', ht, hus, rfl⟩ := List.forall₂_cons_right_iff.mp h
  exact ⟨t', us', rfl, ht, hus⟩

theorem of_singleton {vs : List Token} {t : Token} (h : AllAlike vs [t]) :
    ∃ t', vs = [t'] ∧ Alike t' t := by
  obtain ⟨t', us', rfl, ht, hus⟩ := h.of_cons
  rw [List.forall₂_nil_right_iff.mp hus]
  exact ⟨t', rfl, ht⟩

theorem startsOpen_eq : ∀ {ts us : List Token}, AllAlike ts us → startsOpen ts = startsOpen us
  | _, _, .nil => rfl
  | _, _, .cons h _ => by rw [startsOpen, startsOpen, List.head?_cons, List.head?_cons,
      Option.map_some, Option.map_some, h.kind_eq]

theorem endsClosed_eq : ∀ {ts us : List Token}, AllAlike ts us → endsClosed ts = endsClosed us
  | _, _, .nil => rfl
  | _, _, .cons h .nil => by simp [endsClosed, h.kind_eq]
  | _, _, .cons _ (.cons h hs) => by
    have hrest := endsClosed_eq (.cons h hs)
    simpa only [endsClosed, List.getLast?_cons_cons] using hrest

end AllAlike

variable {α : Type} [Scalar α] [Numeral α]

/-- **Tokens that are alike derive the same.** -/
theorem Derives.congr {p : Phrase} {ts : List Token} {x : p.Meaning α} (h : Derives p ts x) :
    ∀ {vs : List Token}, AllAlike vs ts → Derives p vs x := by
  induction h with
  | sum _ _ ih ihs =>
    intro vs hvs
    obtain ⟨ts', us', rfl, hts, hus⟩ := hvs.of_append
    exact .sum (ih hts) (ihs hus)
  | negatedSum ht _ _ ih ihs =>
    intro vs hvs
    obtain ⟨ts', us', rfl, hts, hus⟩ := hvs.of_append
    obtain ⟨t', ts', rfl, ht', hts⟩ := hts.of_cons
    exact .negatedSum (ht'.kind_eq.trans ht) (ih hts) (ihs hus)
  | noTerms =>
    intro vs hvs
    rw [List.forall₂_nil_right_iff.mp hvs]
    exact .noTerms
  | plus ht _ _ ih ihs =>
    intro vs hvs
    obtain ⟨ts', us', rfl, hts, hus⟩ := hvs.of_append
    obtain ⟨t', ts', rfl, ht', hts⟩ := hts.of_cons
    exact .plus (ht'.kind_eq.trans ht) (ih hts) (ihs hus)
  | minus ht _ _ ih ihs =>
    intro vs hvs
    obtain ⟨ts', us', rfl, hts, hus⟩ := hvs.of_append
    obtain ⟨t', ts', rfl, ht', hts⟩ := hts.of_cons
    exact .minus (ht'.kind_eq.trans ht) (ih hts) (ihs hus)
  | product _ _ ih ihs =>
    intro vs hvs
    obtain ⟨ts', us', rfl, hts, hus⟩ := hvs.of_append
    exact .product (ih hts) (hts.endsClosed_eq ▸ ihs hus)
  | noFactors =>
    intro vs hvs
    rw [List.forall₂_nil_right_iff.mp hvs]
    exact .noFactors
  | times ht _ _ ih ihs =>
    intro vs hvs
    obtain ⟨ts', us', rfl, hts, hus⟩ := hvs.of_append
    obtain ⟨t', ts', rfl, ht', hts⟩ := hts.of_cons
    exact .times (ht'.kind_eq.trans ht) (ih hts) (hts.endsClosed_eq ▸ ihs hus)
  | beside ht _ _ ih ihs =>
    intro vs hvs
    obtain ⟨ts', us', rfl, hts, hus⟩ := hvs.of_append
    exact .beside (hts.startsOpen_eq.trans ht) (ih hts) (hts.endsClosed_eq ▸ ihs hus)
  | quotient _ ih =>
    intro vs hvs
    exact .quotient (ih hvs)
  | fraction _ ht _ iha ihb =>
    intro vs hvs
    obtain ⟨ts', us', rfl, hts, hus⟩ := hvs.of_append
    obtain ⟨t', us', rfl, ht', hus⟩ := hus.of_cons
    exact .fraction (iha hts) (ht'.kind_eq.trans ht) (ihb hus)
  | power _ ih =>
    intro vs hvs
    exact .power (ih hvs)
  | raised _ ht _ iha ihb =>
    intro vs hvs
    obtain ⟨ts', us', rfl, hts, hus⟩ := hvs.of_append
    obtain ⟨t', us', rfl, ht', hus⟩ := hus.of_cons
    exact .raised (iha hts) (ht'.kind_eq.trans ht) (ihb hus)
  | negated ht _ ih =>
    intro vs hvs
    obtain ⟨t', us', rfl, ht', hus⟩ := hvs.of_cons
    exact .negated (ht'.kind_eq.trans ht) (ih hus)
  | number ht hx =>
    intro vs hvs
    obtain ⟨t', rfl, ht'⟩ := hvs.of_singleton
    exact .number (ht'.kind_eq.trans ht) (by rw [ht'.lexeme_eq (.inl ht), hx])
  | name ht _ ih =>
    intro vs hvs
    obtain ⟨t', us', rfl, ht', hus⟩ := hvs.of_cons
    refine .name (ht'.kind_eq.trans ht) ?_
    rw [ht'.lexeme_eq (.inr ht)]
    exact ih hus
  | group ht _ hu ih =>
    intro vs hvs
    obtain ⟨ts', us', rfl, hts, hus⟩ := hvs.of_append
    obtain ⟨t', ts', rfl, ht', hts⟩ := hts.of_cons
    obtain ⟨u', rfl, hu'⟩ := hus.of_singleton
    exact .group (ht'.kind_eq.trans ht) (ih hts) (hu'.kind_eq.trans hu)
  | constant hc =>
    intro vs hvs
    rw [List.forall₂_nil_right_iff.mp hvs]
    exact .constant hc
  | letter hc =>
    intro vs hvs
    rw [List.forall₂_nil_right_iff.mp hvs]
    exact .letter hc
  | function _ ih =>
    intro vs hvs
    exact .function (ih hvs)
  | glued _ he ih =>
    intro vs hvs
    exact .glued (ih hvs) he
  | call ht _ hu he ih =>
    intro vs hvs
    obtain ⟨ts', us', rfl, hts, hus⟩ := hvs.of_append
    obtain ⟨t', ts', rfl, ht', hts⟩ := hts.of_cons
    obtain ⟨u', rfl, hu'⟩ := hus.of_singleton
    exact .call (ht'.kind_eq.trans ht) (ih hts) (hu'.kind_eq.trans hu) he
  | apply _ he ih =>
    intro vs hvs
    exact .apply (ih hvs) he
  | log ht _ hu _ ihb iha =>
    intro vs hvs
    obtain ⟨ts', us', rfl, hts, hus⟩ := hvs.of_append
    obtain ⟨t', ts', rfl, ht', hts⟩ := hts.of_cons
    obtain ⟨u', us', rfl, hu', hus⟩ := hus.of_cons
    exact .log (ht'.kind_eq.trans ht) (ihb hts) (hu'.kind_eq.trans hu) (iha hus)
  | logGroup ht _ hu _ hv ihb iha =>
    intro vs hvs
    obtain ⟨ws', us', rfl, hws, hus⟩ := hvs.of_append
    obtain ⟨v', rfl, hv'⟩ := hus.of_singleton
    obtain ⟨ts', us', rfl, hts, hus⟩ := hws.of_append
    obtain ⟨t', ts', rfl, ht', hts⟩ := hts.of_cons
    obtain ⟨u', us', rfl, hu', hus⟩ := hus.of_cons
    exact .logGroup (ht'.kind_eq.trans ht) (ihb hts) (hu'.kind_eq.trans hu) (iha hus)
      (hv'.kind_eq.trans hv)
  | arg _ ih =>
    intro vs hvs
    exact .arg (ih hvs)
  | args _ ht _ ih ihs =>
    intro vs hvs
    obtain ⟨ts', us', rfl, hts, hus⟩ := hvs.of_append
    obtain ⟨t', us', rfl, ht', hus⟩ := hus.of_cons
    exact .args (ih hts) (ht'.kind_eq.trans ht) (ihs hus)

end SymbolicAlgebra.Grammar
