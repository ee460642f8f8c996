import SymbolicAlgebra.Proofs.Grammar.Names

/-! # The parser reads phrases of the grammar

Whatever an action of the parser reads with success is a phrase of its kind, and the value is what
the phrase stands for. `Sound fuel` collects this for all actions, and one lemma an action takes it
from `fuel` to `fuel + 1`.

The actions read a minus in front of any power, and the grammar allows one in a few places only. A
doubled operator is ruled out before reading starts; so the tokens ahead never contain one, and a
minus cannot stand where a product begins. -/

namespace SymbolicAlgebra.Grammar

open Reader (operatorFault?)

/-! ### Operators side by side -/

theorem operatorFault?_tail {t : Token} : ∀ {ts : List Token},
    operatorFault? (t :: ts) = none → operatorFault? ts = none
  | [], _ => rfl
  | u :: ts, h => by
    rw [operatorFault?] at h
    split_ifs at h
    exact h

theorem operatorFault?_append : ∀ {ts us : List Token},
    operatorFault? (ts ++ us) = none → operatorFault? us = none
  | [], _, h => h
  | _ :: _, _, h => operatorFault?_append (operatorFault?_tail h)

theorem kind_ne_minus {t u : Token} {ts : List Token} (h : operatorFault? (t :: u :: ts) = none)
    (ht : t.kind = .plus ∨ t.kind = .minus) : u.kind ≠ .minus := by
  intro hu
  rw [operatorFault?] at h
  rcases ht with ht | ht <;> rw [ht, hu] at h <;> simp [TokenKind.isOperator, Reader.mayFollow] at h

/-- The reader has no doubled operator ahead. -/
def Single (r : Reader) : Prop := operatorFault? r.ahead = none

section Passes
variable {r r' : Reader} {t : Token} {ts : List Token}

theorem Single.passes (hr : Single r) (h : Passes r ts r') : Single r' := by
  rw [Single, h.ahead] at hr
  exact operatorFault?_append hr

theorem Single.peek_ne_minus (hr : Single r) (h : Passes r [t] r')
    (ht : t.kind = .plus ∨ t.kind = .minus) : r'.peek? ≠ some .minus := by
  rw [Single, h.ahead] at hr
  rcases hahead : r'.ahead with _ | ⟨u, us⟩
  · rw [Reader.peek?_eq_none hahead]
    simp
  · rw [hahead] at hr
    rw [Reader.peek?_eq_kind hahead]
    simpa using kind_ne_minus hr ht

end Passes

/-! ### Brackets side by side -/

/-- Whether a phrase can have no tokens. -/
def Phrase.mayBeEmpty : Phrase → Bool
  | terms => true
  | factors _ => true
  | named _ => true
  | _ => false

variable {α : Type} [Scalar α] [Numeral α]

theorem Derives.ne_nil {p : Phrase} {ts : List Token} {x : p.Meaning α} (h : Derives p ts x)
    (hp : p.mayBeEmpty = false) : ts ≠ [] := by
  induction h with
  | sum h hs ih _ => simp [ih rfl]
  | product h hs ih _ => simp [ih rfl]
  | quotient h ih => exact ih rfl
  | power h ih => exact ih rfl
  | apply h he ih => exact ih rfl
  | arg h ih => exact ih rfl
  | noTerms => simp [Phrase.mayBeEmpty] at hp
  | noFactors => simp [Phrase.mayBeEmpty] at hp
  | beside => simp [Phrase.mayBeEmpty] at hp
  | constant => simp [Phrase.mayBeEmpty] at hp
  | letter => simp [Phrase.mayBeEmpty] at hp
  | function => simp [Phrase.mayBeEmpty] at hp
  | glued => simp [Phrase.mayBeEmpty] at hp
  | _ => simp

/-- Whether the token read last is a closing bracket. -/
def closed (r : Reader) : Bool := r.previous?.map Token.kind == some .closing

theorem closed_eq {r r' : Reader} {ts : List Token} (h : Passes r ts r') (hts : ts ≠ []) :
    closed r' = endsClosed ts := by
  have hhead : r'.behind.head? = ts.getLast? := by
    rw [h.behind, List.head?_append, List.head?_reverse]
    rcases hlast : ts.getLast? with _ | t
    · exact absurd (List.getLast?_eq_none_iff.mp hlast) hts
    · rfl
  rw [closed, Reader.previous?, hhead, endsClosed]

theorem startsOpen_eq {r r' : Reader} {ts : List Token} (h : Passes r ts r') (hts : ts ≠ []) :
    startsOpen ts = (r.peek? == some .opening) := by
  obtain ⟨t, us, rfl⟩ := List.exists_cons_of_ne_nil hts
  rw [Reader.peek?_eq_kind h.ahead, startsOpen]
  rfl

/-! ### What the actions read -/

/-- **Whatever the actions with this fuel read is a phrase.** -/
structure Sound (α : Type) [Scalar α] [Numeral α] (fuel : Nat) : Prop where
  sum {r r' : Reader} {e : Expr α} : Single r → Read.sum fuel r = .done e r' →
    ∃ ts, Passes r ts r' ∧ Derives .sum ts e
  terms {r r' : Reader} {read : List (Expr α)} {e : Expr α} : Single r →
    Read.terms fuel read r = .done e r' →
    ∃ ts es, Passes r ts r' ∧ Derives .terms ts es ∧
      e = Read.combine Expr.sumOf (read.reverse ++ es)
  product {r r' : Reader} {e : Expr α} : Single r → r.peek? ≠ some .minus →
    Read.product fuel r = .done e r' → ∃ ts, Passes r ts r' ∧ Derives .product ts e
  factors {r r' : Reader} {read : List (Expr α)} {e : Expr α} : Single r →
    Read.factors fuel read r = .done e r' →
    ∃ ts es, Passes r ts r' ∧ Derives (.factors (closed r)) ts es ∧
      e = Read.combine Expr.productOf (read.reverse ++ es)
  quotient (signed : Bool) {r r' : Reader} {e : Expr α} : Single r →
    (signed = false → r.peek? ≠ some .minus) → Read.quotient fuel r = .done e r' →
    ∃ ts, Passes r ts r' ∧ Derives (.quotient signed) ts e
  power (signed : Bool) {r r' : Reader} {e : Expr α} : Single r →
    (signed = false → r.peek? ≠ some .minus) → Read.power fuel r = .done e r' →
    ∃ ts, Passes r ts r' ∧ Derives (.power signed) ts e
  atom {r r' : Reader} {e : Expr α} : Single r → Read.atom fuel r = .done e r' →
    ∃ ts, Passes r ts r' ∧ Derives .atom ts e
  group {r r' : Reader} {e : Expr α} : Single r → Read.group fuel r = .done e r' →
    ∃ ts u, Passes r (ts ++ [u]) r' ∧ Derives .sum ts e ∧ u.kind = .closing
  args {r r' : Reader} {es : List (Expr α)} : Single r → Read.args fuel r = .done es r' →
    ∃ t ts u, Passes r (t :: ts ++ [u]) r' ∧ t.kind = .opening ∧ Derives .args ts es ∧
      u.kind = .closing
  moreArgs {r r' : Reader} {read es : List (Expr α)} : Single r →
    Read.moreArgs fuel read r = .done es r' →
    ∃ ts u, Passes r (ts ++ [u]) r' ∧ u.kind = .closing ∧
      (ts = [] ∧ es = read.reverse ∨
        ∃ t us es', ts = t :: us ∧ t.kind = .comma ∧ Derives .args us es' ∧
          es = read.reverse ++ es')
  name {r r' : Reader} {t : Token} {e : Expr α} : Single r → Read.name fuel t r = .done e r' →
    ∃ ts, Passes r ts r' ∧ Derives (.named t.lexeme) ts e
  application {r r' : Reader} {f : Callable} {span : Span} {e : Expr α} : Single r →
    Read.application fuel f span r = .done e r' →
    ∃ ts, Passes r ts r' ∧ Derives (.application f) ts e
  logarithm {r r' : Reader} {t : Token} {e : Expr α} : Single r → t.kind = .underscore →
    Read.logarithm fuel r = .done e r' →
    ∃ ts, Passes r ts r' ∧ Derives (.application .log) (t :: ts) e

section Steps
variable {fuel : Nat} (hs : Sound α fuel) {r r' : Reader}
include hs

theorem sum_sound {e : Expr α} (hr : Single r) (h : Read.sum (fuel + 1) r = .done e r') :
    ∃ ts, Passes r ts r' ∧ Derives .sum ts e := by
  rw [Read.sum, Read.bind_done_iff] at h
  obtain ⟨minus, r₁, hminus, h⟩ := h
  cases minus with
  | true =>
    obtain ⟨t, ht, hpass⟩ := Read.eat_true hminus
    replace h := Read.bind_done_iff.mp h
    obtain ⟨first, r₂, hfirst, h⟩ := h
    obtain ⟨ts, hts, hfirst⟩ := hs.product (hr.passes hpass) (hr.peek_ne_minus hpass (.inr ht))
      hfirst
    obtain ⟨us, es, hus, hes, rfl⟩ := hs.terms ((hr.passes hpass).passes hts) h
    exact ⟨t :: ts ++ us, (hpass.trans hts).trans hus, .negatedSum ht hfirst hes⟩
  | false =>
    obtain ⟨rfl, hpeek⟩ := Read.eat_false hminus
    replace h := Read.bind_done_iff.mp h
    obtain ⟨first, r₂, hfirst, h⟩ := h
    obtain ⟨ts, hts, hfirst⟩ := hs.product hr hpeek hfirst
    obtain ⟨us, es, hus, hes, rfl⟩ := hs.terms (hr.passes hts) h
    exact ⟨ts ++ us, hts.trans hus, .sum hfirst hes⟩

theorem terms_sound {read : List (Expr α)} {e : Expr α} (hr : Single r)
    (h : Read.terms (fuel + 1) read r = .done e r') :
    ∃ ts es, Passes r ts r' ∧ Derives .terms ts es ∧
      e = Read.combine Expr.sumOf (read.reverse ++ es) := by
  rw [Read.terms, Read.bind_done_iff] at h
  obtain ⟨plus, r₁, hplus, h⟩ := h
  cases plus with
  | true =>
    obtain ⟨t, ht, hpass⟩ := Read.eat_true hplus
    replace h := Read.bind_done_iff.mp h
    obtain ⟨term, r₂, hterm, h⟩ := h
    obtain ⟨ts, hts, hterm⟩ := hs.product (hr.passes hpass) (hr.peek_ne_minus hpass (.inl ht)) hterm
    obtain ⟨us, es, hus, hes, rfl⟩ := hs.terms ((hr.passes hpass).passes hts) h
    refine ⟨t :: ts ++ us, term :: es, (hpass.trans hts).trans hus, .plus ht hterm hes, ?_⟩
    rw [List.reverse_cons, List.append_assoc, List.singleton_append]
  | false =>
    obtain ⟨rfl, -⟩ := Read.eat_false hplus
    replace h := Read.bind_done_iff.mp h
    obtain ⟨minus, r₂, hminus, h⟩ := h
    cases minus with
    | true =>
      obtain ⟨t, ht, hpass⟩ := Read.eat_true hminus
      replace h := Read.bind_done_iff.mp h
      obtain ⟨term, r₃, hterm, h⟩ := h
      obtain ⟨ts, hts, hterm⟩ :=
        hs.product (hr.passes hpass) (hr.peek_ne_minus hpass (.inr ht)) hterm
      obtain ⟨us, es, hus, hes, rfl⟩ := hs.terms ((hr.passes hpass).passes hts) h
      refine ⟨t :: ts ++ us, term.neg :: es, (hpass.trans hts).trans hus, .minus ht hterm hes, ?_⟩
      rw [List.reverse_cons, List.append_assoc, List.singleton_append]
    | false =>
      obtain ⟨rfl, -⟩ := Read.eat_false hminus
      obtain ⟨rfl, rfl⟩ := Read.pure_done_iff.mp h
      exact ⟨[], [], .refl _, .noTerms, by rw [List.append_nil]⟩

theorem product_sound {e : Expr α} (hr : Single r) (hpeek : r.peek? ≠ some .minus)
    (h : Read.product (fuel + 1) r = .done e r') :
    ∃ ts, Passes r ts r' ∧ Derives .product ts e := by
  rw [Read.product, Read.bind_done_iff] at h
  obtain ⟨first, r₁, hfirst, h⟩ := h
  obtain ⟨ts, hts, hfirst⟩ := hs.quotient false hr (fun _ => hpeek) hfirst
  obtain ⟨us, es, hus, hes, rfl⟩ := hs.factors (hr.passes hts) h
  rw [closed_eq hts (hfirst.ne_nil rfl)] at hes
  exact ⟨ts ++ us, hts.trans hus, .product hfirst hes⟩

theorem factors_sound {read : List (Expr α)} {e : Expr α} (hr : Single r)
    (h : Read.factors (fuel + 1) read r = .done e r') :
    ∃ ts es, Passes r ts r' ∧ Derives (.factors (closed r)) ts es ∧
      e = Read.combine Expr.productOf (read.reverse ++ es) := by
  rw [Read.factors, Read.bind_done_iff] at h
  obtain ⟨times, r₁, htimes, h⟩ := h
  replace h := Read.get_bind_done_iff.mp h
  cases times with
  | true =>
    obtain ⟨t, ht, hpass⟩ := Read.eat_true htimes
    replace h := Read.bind_done_iff.mp h
    obtain ⟨factor, r₄, hfactor, h⟩ := h
    obtain ⟨ts, hts, hfactor⟩ := hs.quotient true (hr.passes hpass) (by simp) hfactor
    obtain ⟨us, es, hus, hes, rfl⟩ := hs.factors ((hr.passes hpass).passes hts) h
    rw [closed_eq hts (hfactor.ne_nil rfl)] at hes
    refine ⟨t :: ts ++ us, factor :: es, (hpass.trans hts).trans hus, .times ht hfactor hes, ?_⟩
    rw [List.reverse_cons, List.append_assoc, List.singleton_append]
  | false =>
    obtain ⟨rfl, -⟩ := Read.eat_false htimes
    rw [Bool.false_or] at h
    split_ifs at h with hbeside
    · rw [Read.atImplicitProduct, Bool.and_eq_true] at hbeside
      obtain ⟨hopening, hclosing⟩ := hbeside
      have hpeek : r₁.peek? ≠ some .minus := by
        rw [beq_iff_eq.mp hopening]
        decide
      replace h := Read.bind_done_iff.mp h
      obtain ⟨factor, r₄, hfactor, h⟩ := h
      obtain ⟨ts, hts, hfactor⟩ := hs.quotient false hr (fun _ => hpeek) hfactor
      obtain ⟨us, es, hus, hes, rfl⟩ := hs.factors (hr.passes hts) h
      have hne := hfactor.ne_nil rfl
      rw [closed_eq hts hne] at hes
      refine ⟨ts ++ us, factor :: es, hts.trans hus, ?_, ?_⟩
      · rw [show closed r₁ = true from hclosing]
        exact .beside ((startsOpen_eq hts hne).trans hopening) hfactor hes
      · rw [List.reverse_cons, List.append_assoc, List.singleton_append]
    · obtain ⟨rfl, rfl⟩ := Read.pure_done_iff.mp h
      exact ⟨[], [], .refl _, .noFactors, by rw [List.append_nil]⟩

theorem quotient_sound (signed : Bool) {e : Expr α} (hr : Single r)
    (hpeek : signed = false → r.peek? ≠ some .minus)
    (h : Read.quotient (fuel + 1) r = .done e r') :
    ∃ ts, Passes r ts r' ∧ Derives (.quotient signed) ts e := by
  rw [Read.quotient, Read.bind_done_iff] at h
  obtain ⟨num, r₁, hread, h⟩ := h
  obtain ⟨ts, hts, hnum⟩ := hs.power signed hr hpeek hread
  replace h := Read.bind_done_iff.mp h
  obtain ⟨slash, r₂, hslash, h⟩ := h
  cases slash with
  | true =>
    obtain ⟨t, ht, hpass⟩ := Read.eat_true hslash
    replace h := Read.bind_done_iff.mp h
    obtain ⟨den, r₃, hden, h⟩ := h
    obtain ⟨us, hus, hden⟩ :=
      hs.quotient true ((hr.passes hts).passes hpass) (by simp) hden
    obtain ⟨rfl, rfl⟩ := Read.pure_done_iff.mp h
    exact ⟨ts ++ t :: us, hts.trans (hpass.trans hus), .fraction hnum ht hden⟩
  | false =>
    obtain ⟨rfl, -⟩ := Read.eat_false hslash
    obtain ⟨rfl, rfl⟩ := Read.pure_done_iff.mp h
    exact ⟨ts, hts, .quotient hnum⟩

theorem power_sound (signed : Bool) {e : Expr α} (hr : Single r)
    (hpeek : signed = false → r.peek? ≠ some .minus)
    (h : Read.power (fuel + 1) r = .done e r') :
    ∃ ts, Passes r ts r' ∧ Derives (.power signed) ts e := by
  rw [Read.power, Read.bind_done_iff] at h
  obtain ⟨minus, r₁, hminus, h⟩ := h
  cases minus with
  | true =>
    obtain ⟨t, ht, hpass⟩ := Read.eat_true hminus
    have hsigned : signed = true := by
      by_contra hfalse
      refine hpeek (Bool.not_eq_true _ ▸ hfalse) ?_
      rw [Reader.peek?_eq_kind hpass.ahead, ht]
    replace h := Read.bind_done_iff.mp h
    obtain ⟨inner, r₂, hinner, h⟩ := h
    obtain ⟨ts, hts, hinner⟩ := hs.power false (hr.passes hpass)
      (fun _ => hr.peek_ne_minus hpass (.inr ht)) hinner
    obtain ⟨rfl, rfl⟩ := Read.pure_done_iff.mp h
    rw [hsigned]
    exact ⟨t :: ts, hpass.trans hts, .negated ht hinner⟩
  | false =>
    obtain ⟨rfl, -⟩ := Read.eat_false hminus
    replace h := Read.bind_done_iff.mp h
    obtain ⟨base, r₂, hread, h⟩ := h
    obtain ⟨ts, hts, hbase⟩ := hs.atom hr hread
    replace h := Read.bind_done_iff.mp h
    obtain ⟨caret, r₃, hcaret, h⟩ := h
    cases caret with
    | true =>
      obtain ⟨t, ht, hpass⟩ := Read.eat_true hcaret
      replace h := Read.bind_done_iff.mp h
      obtain ⟨exponent, r₄, hexponent, h⟩ := h
      obtain ⟨us, hus, hexponent⟩ :=
        hs.power true ((hr.passes hts).passes hpass) (by simp) hexponent
      obtain ⟨rfl, rfl⟩ := Read.pure_done_iff.mp h
      exact ⟨ts ++ t :: us, hts.trans (hpass.trans hus), .raised hbase ht hexponent⟩
    | false =>
      obtain ⟨rfl, -⟩ := Read.eat_false hcaret
      obtain ⟨rfl, rfl⟩ := Read.pure_done_iff.mp h
      exact ⟨ts, hts, .power hbase⟩

theorem atom_sound {e : Expr α} (hr : Single r) (h : Read.atom (fuel + 1) r = .done e r') :
    ∃ ts, Passes r ts r' ∧ Derives .atom ts e := by
  rw [Read.atom, Read.bind_done_iff] at h
  obtain ⟨t, r₁, hnext, h⟩ := h
  have hpass := Read.next_done hnext
  cases hkind : t.kind with
  | number =>
    rw [hkind] at h
    unfold Read.number at h
    rcases hx : (Numeral.read t.lexeme : Option α) with _ | x
    · rw [hx] at h
      cases h
    · rw [hx] at h
      obtain ⟨rfl, rfl⟩ := Read.pure_done_iff.mp h
      exact ⟨[t], hpass, .number hkind hx⟩
  | name =>
    rw [hkind] at h
    obtain ⟨ts, hts, hname⟩ := hs.name (hr.passes hpass) h
    exact ⟨t :: ts, hpass.trans hts, .name hkind hname⟩
  | opening =>
    rw [hkind] at h
    obtain ⟨ts, u, hts, hsum, hu⟩ := hs.group (hr.passes hpass) h
    exact ⟨t :: ts ++ [u], hpass.trans hts, .group hkind hsum hu⟩
  | _ =>
    rw [hkind] at h
    cases h

theorem group_sound {e : Expr α} (hr : Single r) (h : Read.group (fuel + 1) r = .done e r') :
    ∃ ts u, Passes r (ts ++ [u]) r' ∧ Derives .sum ts e ∧ u.kind = .closing := by
  rw [Read.group, Read.bind_done_iff] at h
  obtain ⟨inner, r₁, hinner, h⟩ := h
  obtain ⟨ts, hts, hsum⟩ := hs.sum hr hinner
  replace h := Read.bind_done_iff.mp h
  obtain ⟨u, r₂, hexpect, h⟩ := h
  obtain ⟨hu, hpass⟩ := Read.expect_done hexpect
  obtain ⟨rfl, rfl⟩ := Read.pure_done_iff.mp h
  exact ⟨ts, u, hts.trans hpass, hsum, List.mem_singleton.mp hu⟩

theorem args_sound {es : List (Expr α)} (hr : Single r) (h : Read.args (fuel + 1) r = .done es r') :
    ∃ t ts u, Passes r (t :: ts ++ [u]) r' ∧ t.kind = .opening ∧ Derives .args ts es ∧
      u.kind = .closing := by
  rw [Read.args, Read.bind_done_iff] at h
  obtain ⟨t, r₁, hexpect, h⟩ := h
  obtain ⟨ht, hpass⟩ := Read.expect_done hexpect
  replace h := Read.bind_done_iff.mp h
  obtain ⟨first, r₂, hfirst, h⟩ := h
  obtain ⟨ts, hts, hsum⟩ := hs.sum (hr.passes hpass) hfirst
  obtain ⟨us, u, hus, hu, hmore⟩ := hs.moreArgs ((hr.passes hpass).passes hts) h
  refine ⟨t, ts ++ us, u, ?_, List.mem_singleton.mp ht, ?_, hu⟩
  · rw [List.cons_append, List.append_assoc]
    exact hpass.trans (hts.trans hus)
  · rcases hmore with ⟨rfl, rfl⟩ | ⟨comma, vs, es', rfl, hcomma, hargs, rfl⟩
    · rw [List.append_nil]
      exact .arg hsum
    · exact .args hsum hcomma hargs

theorem moreArgs_sound {read es : List (Expr α)} (hr : Single r)
    (h : Read.moreArgs (fuel + 1) read r = .done es r') :
    ∃ ts u, Passes r (ts ++ [u]) r' ∧ u.kind = .closing ∧
      (ts = [] ∧ es = read.reverse ∨
        ∃ t us es', ts = t :: us ∧ t.kind = .comma ∧ Derives .args us es' ∧
          es = read.reverse ++ es') := by
  rw [Read.moreArgs, Read.bind_done_iff] at h
  obtain ⟨t, r₁, hexpect, h⟩ := h
  obtain ⟨ht, hpass⟩ := Read.expect_done hexpect
  split_ifs at h with hclosing
  · obtain ⟨rfl, rfl⟩ := Read.pure_done_iff.mp h
    exact ⟨[], t, hpass, hclosing, .inl ⟨rfl, rfl⟩⟩
  · have hcomma : t.kind = .comma := by simpa [hclosing] using ht
    replace h := Read.bind_done_iff.mp h
    obtain ⟨arg, r₂, harg, h⟩ := h
    obtain ⟨ts, hts, hsum⟩ := hs.sum (hr.passes hpass) harg
    obtain ⟨us, u, hus, hu, hmore⟩ := hs.moreArgs ((hr.passes hpass).passes hts) h
    refine ⟨t :: (ts ++ us), u, ?_, hu, .inr ?_⟩
    · rw [List.cons_append, List.append_assoc]
      exact hpass.trans (hts.trans hus)
    · rcases hmore with ⟨rfl, rfl⟩ | ⟨comma, vs, es', rfl, hcomma', hargs, rfl⟩
      · exact ⟨t, _, [arg], rfl, hcomma, by rw [List.append_nil]; exact .arg hsum, by simp⟩
      · exact ⟨t, _, arg :: es', rfl, hcomma, .args hsum hcomma' hargs, by simp⟩

theorem name_sound {t : Token} {e : Expr α} (hr : Single r)
    (h : Read.name (fuel + 1) t r = .done e r') :
    ∃ ts, Passes r ts r' ∧ Derives (.named t.lexeme) ts e := by
  rw [Read.name] at h
  cases htail : (NameParts.ofName t.lexeme).tail with
  | constant c =>
    rw [htail] at h
    obtain ⟨hfront, rfl⟩ := applyFront_done_iff.mp h
    have hmeans : NameMeans (fun f => Derives (.application f)) t.lexeme [] e :=
      ⟨.const c.value, by rw [htail]; exact ⟨rfl, rfl⟩, hfront⟩
    exact ⟨[], .refl _, hmeans.derives⟩
  | «variable» c =>
    rw [htail] at h
    replace h := Read.bind_done_iff.mp h
    obtain ⟨u, r₁, hregister, h⟩ := h
    obtain ⟨hfront, rfl⟩ := applyFront_done_iff.mp h
    have hmeans : NameMeans (fun f => Derives (.application f)) t.lexeme [] e :=
      ⟨.var c, by rw [htail]; exact ⟨rfl, rfl⟩, hfront⟩
    cases hregister
    exact ⟨[], ⟨rfl, rfl⟩, hmeans.derives⟩
  | function f =>
    rw [htail] at h
    replace h := Read.bind_done_iff.mp h
    obtain ⟨operand, r₁, hoperand, h⟩ := h
    obtain ⟨hfront, rfl⟩ := applyFront_done_iff.mp h
    obtain ⟨ts, hts, happlication⟩ := hs.application hr hoperand
    have hmeans : NameMeans (fun f => Derives (.application f)) t.lexeme ts e :=
      ⟨operand, by rw [htail]; exact happlication, hfront⟩
    exact ⟨ts, hts, hmeans.derives⟩
  | unknown =>
    rw [htail] at h
    cases h

theorem operand_sound {f : Callable} {span : Span} {e : Expr α} (hr : Single r)
    (h : Read.operand fuel f span r = .done e r') :
    ∃ ts, Passes r ts r' ∧ Derives (.application f) ts e := by
  replace h := Read.get_bind_done_iff.mp h
  split_ifs at h
  · replace h := Read.bind_done_iff.mp h
    obtain ⟨given, r₁, hgiven, h⟩ := h
    obtain ⟨t, ts, u, hts, ht, hargs, hu⟩ := hs.args hr hgiven
    obtain ⟨he, rfl⟩ := call_done_iff.mp (Read.get_bind_done_iff.mp h)
    exact ⟨_, hts, .call ht hargs hu he⟩
  · replace h := Read.bind_done_iff.mp h
    obtain ⟨a, r₁, ha, h⟩ := h
    obtain ⟨ts, hts, hatom⟩ := hs.atom hr ha
    obtain ⟨he, rfl⟩ := call_done_iff.mp h
    exact ⟨ts, hts, .apply hatom he⟩

theorem application_sound {f : Callable} {span : Span} {e : Expr α} (hr : Single r)
    (h : Read.application (fuel + 1) f span r = .done e r') :
    ∃ ts, Passes r ts r' ∧ Derives (.application f) ts e := by
  by_cases hf : f = .log
  · subst hf
    rw [Read.application_log, Read.bind_done_iff] at h
    obtain ⟨underscore, r₁, heat, h⟩ := h
    cases underscore with
    | true =>
      obtain ⟨t, ht, hpass⟩ := Read.eat_true heat
      obtain ⟨ts, hts, hlog⟩ := hs.logarithm (hr.passes hpass) ht h
      exact ⟨t :: ts, hpass.trans hts, hlog⟩
    | false =>
      obtain ⟨rfl, -⟩ := Read.eat_false heat
      exact operand_sound hs hr h
  · rw [Read.application_eq_operand hf] at h
    exact operand_sound hs hr h

theorem logarithm_sound {t : Token} {e : Expr α} (hr : Single r) (ht : t.kind = .underscore)
    (h : Read.logarithm (fuel + 1) r = .done e r') :
    ∃ ts, Passes r ts r' ∧ Derives (.application .log) (t :: ts) e := by
  rw [Read.logarithm, Read.bind_done_iff] at h
  obtain ⟨base, r₁, hread, h⟩ := h
  obtain ⟨ts, hts, hbase⟩ := hs.atom hr hread
  replace h := Read.bind_done_iff.mp h
  obtain ⟨underscore, r₂, heat, h⟩ := h
  cases underscore with
  | true =>
    obtain ⟨u, hu, hpass⟩ := Read.eat_true heat
    replace h := Read.bind_done_iff.mp h
    obtain ⟨arg, r₃, hread', h⟩ := h
    obtain ⟨us, hus, harg⟩ := hs.atom ((hr.passes hts).passes hpass) hread'
    obtain ⟨rfl, rfl⟩ := Read.pure_done_iff.mp h
    exact ⟨ts ++ u :: us, hts.trans (hpass.trans hus), .log ht hbase hu harg⟩
  | false =>
    obtain ⟨rfl, hpeek⟩ := Read.eat_false heat
    replace h := Read.bind_done_iff.mp h
    obtain ⟨u, r₃, hexpect, h⟩ := h
    obtain ⟨hu, hpass⟩ := Read.expect_done hexpect
    have hopening : u.kind = .opening := by
      rw [Reader.peek?_eq_kind hpass.ahead] at hpeek
      have hne : u.kind ≠ .underscore := by simpa using hpeek
      simpa [hne] using hu
    replace h := Read.bind_done_iff.mp h
    obtain ⟨arg, r₄, hread', h⟩ := h
    obtain ⟨us, v, hus, harg, hv⟩ := hs.group ((hr.passes hts).passes hpass) hread'
    obtain ⟨rfl, rfl⟩ := Read.pure_done_iff.mp h
    refine ⟨ts ++ u :: us ++ [v], ?_, .logGroup ht hbase hopening harg hv⟩
    rw [List.append_assoc]
    exact hts.trans (hpass.trans hus)

end Steps

/-- **Whatever the parser reads is a phrase**, with any fuel. -/
theorem sound : ∀ fuel : Nat, Sound α fuel
  | 0 =>
    { sum := fun _ h => nomatch h
      terms := fun _ h => nomatch h
      product := fun _ _ h => nomatch h
      factors := fun _ h => nomatch h
      quotient := fun _ _ _ _ _ _ h => nomatch h
      power := fun _ _ _ _ _ _ h => nomatch h
      atom := fun _ h => nomatch h
      group := fun _ h => nomatch h
      args := fun _ h => nomatch h
      moreArgs := fun _ h => nomatch h
      name := fun _ h => nomatch h
      application := fun _ h => nomatch h
      logarithm := fun _ _ h => nomatch h }
  | fuel + 1 =>
    { sum := sum_sound (sound fuel)
      terms := terms_sound (sound fuel)
      product := product_sound (sound fuel)
      factors := factors_sound (sound fuel)
      quotient := fun signed _ _ _ => quotient_sound (sound fuel) signed
      power := fun signed _ _ _ => power_sound (sound fuel) signed
      atom := atom_sound (sound fuel)
      group := group_sound (sound fuel)
      args := args_sound (sound fuel)
      moreArgs := moreArgs_sound (sound fuel)
      name := name_sound (sound fuel)
      application := application_sound (sound fuel)
      logarithm := logarithm_sound (sound fuel) }

end SymbolicAlgebra.Grammar
