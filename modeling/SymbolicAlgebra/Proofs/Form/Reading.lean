import SymbolicAlgebra.Proofs.Form.WellFormed
import SymbolicAlgebra.Proofs.Grammar.Names

/-! # What reading gathers

The parser builds well-formed expressions only, and the variables that it registers are those of the
expressions it has built. `Gathered r₀ es r` says so of a reader `r` that has built the expressions
`es` since it was `r₀`. Every action of the parser goes from a reader with some expressions gathered
to one with its own result gathered on top (`Gathers`), by induction on the fuel. -/

namespace SymbolicAlgebra

open SymbolicAlgebra.Expr (Occurs arrange)

/-! ### Expressions built from others -/

section Build
variable {α : Type} [Scalar α]

/-- An expression with the variables of others, which is well formed if they are. -/
structure BuiltFrom (as : List (Expr α)) (e : Expr α) : Prop where
  wellFormed : (∀ a ∈ as, a.WellFormed) → e.WellFormed
  vars (c : Char) : Occurs (.var c) e ↔ ∃ a ∈ as, Occurs (.var c) a

namespace BuiltFrom

variable {a b e : Expr α} {as bs : List (Expr α)}

theorem refl (e : Expr α) : BuiltFrom [e] e := ⟨by simp, by simp⟩

theorem trans (h : BuiltFrom [b] e) (h' : BuiltFrom as b) : BuiltFrom as e := by
  constructor
  · exact fun has => h.wellFormed (List.forall_mem_singleton.mpr (h'.wellFormed has))
  · intro c
    rw [h.vars]
    simpa using h'.vars c

theorem perm (h : BuiltFrom as e) (hperm : as.Perm bs) : BuiltFrom bs e := by
  constructor
  · exact fun hbs => h.wellFormed fun a ha => hbs a (hperm.mem_iff.mp ha)
  · intro c
    rw [h.vars]
    simp only [hperm.mem_iff]

theorem unary (f : Unary) (a : Expr α) : BuiltFrom [a] (.unary f a) :=
  ⟨fun h => Expr.WellFormed.unary_iff.mpr (h a List.mem_cons_self), by simp⟩

theorem binary (f : Binary) (a b : Expr α) : BuiltFrom [a, b] (.binary f a b) := by
  constructor
  · exact fun h => Expr.WellFormed.binary_iff.mpr ⟨h a (by simp), h b (by simp)⟩
  · simp

/-- A function of two arguments of which one is a number. -/
theorem binary_const_left (f : Binary) (x : α) (a : Expr α) :
    BuiltFrom [a] (.binary f (.const x) a) := by
  constructor
  · exact fun h => Expr.WellFormed.binary_iff.mpr ⟨.const x, h a List.mem_cons_self⟩
  · simp

theorem binary_const_right (f : Binary) (a : Expr α) (x : α) :
    BuiltFrom [a] (.binary f a (.const x)) := by
  constructor
  · exact fun h => Expr.WellFormed.binary_iff.mpr ⟨h a List.mem_cons_self, .const x⟩
  · simp

omit [Scalar α] in
theorem two_le_length_cons (h : as ≠ []) : 2 ≤ (a :: as).length := by
  have hpos := List.length_pos_iff.mpr h
  rw [List.length_cons]
  omega

variable [OrderedScalar α]

theorem arranged (f : Nary) (hlength : 2 ≤ as.length) :
    BuiltFrom as (.nary f (arrange f as)) := by
  constructor
  · exact Expr.WellFormed.arranged f hlength
  · intro c
    simp [(Expr.arrange_perm f as).mem_iff]

theorem neg (e : Expr α) : BuiltFrom [e] e.neg := by
  constructor
  · exact fun h => (h e List.mem_cons_self).neg
  · simp [Occurs.var_neg_iff]

/-- One expression as it is, or several ones arranged under a function. -/
theorem combine (f : Nary) (hne : as ≠ []) :
    BuiltFrom as (Read.combine (fun es => .nary f (arrange f es)) as) := by
  match as, hne with
  | [a], _ => exact .refl a
  | a :: b :: as, _ => exact .arranged f (Nat.le_add_left 2 as.length)

/-- **The application of a function is built from its arguments.** -/
theorem applied {f : Callable} (h : f.applied? as = some e) : BuiltFrom as e := by
  unfold Callable.applied? at h
  split at h <;> cases h
  · exact .refl e
  · exact .refl e
  · next a as hne => exact .arranged .min (two_le_length_cons hne)
  · next a as hne => exact .arranged .max (two_le_length_cons hne)
  · exact .binary _ _ _
  · exact .unary _ _
  · exact .unary _ _
  · exact .binary_const_right _ _ _
  · exact .binary_const_left _ _ _
  · exact .binary_const_left _ _ _
  · exact .binary_const_left _ _ _
  · exact .unary _ _

theorem appliedAll : ∀ {fs : List Callable} {a e : Expr α},
    Grammar.applyAll fs a = some e → BuiltFrom [a] e
  | [], a, e, h => by
    rw [← Option.some.inj h]
    exact .refl a
  | f :: fs, a, e, h => by
    obtain ⟨b, hb, he⟩ := Option.bind_eq_some_iff.mp h
    exact (applied he).trans (appliedAll hb)

end BuiltFrom

end Build

/-! ### Variables in names -/

/-- A variable that a name among the tokens spells: a letter of the name that is no constant. -/
def Spelled (ts : List Token) (c : Char) : Prop :=
  Constant.ofName? [c] = none ∧ ∃ t ∈ ts, t.kind = .name ∧ c ∈ t.lexeme

theorem whole?_variable {n : List Char} {c : Char}
    (h : NameParts.whole? n = some (.variable c)) : Constant.ofName? [c] = none ∧ n = [c] := by
  unfold NameParts.whole? at h
  split at h
  · cases h
  · next hname =>
    split at h
    · cases h
      exact ⟨hname, rfl⟩
    · obtain ⟨f, -, hf⟩ := Option.map_eq_some_iff.mp h
      cases hf

/-- A variable at the end of a name is a letter of it. -/
theorem split_variable : ∀ (fuel : Nat) {n : List Char} {c : Char},
    (NameParts.split fuel n).tail = .variable c → Constant.ofName? [c] = none ∧ c ∈ n
  | fuel, n, c, h => by
    rcases hn : NameParts.whole? n with _ | tail
    · rcases hf : Callable.ofPrefix? n with _ | f
      · rw [Grammar.split_unknown hn hf] at h
        cases h
      · cases fuel with
        | zero =>
          rw [NameParts.split, hn] at h
          cases h
        | succ fuel =>
          rw [Grammar.split_front hn hf] at h
          obtain ⟨hc, hmem⟩ := split_variable fuel h
          exact ⟨hc, List.mem_of_mem_drop hmem⟩
    · rw [Grammar.split_whole hn] at h
      obtain ⟨hc, rfl⟩ := whole?_variable (hn.trans (congrArg some h))
      exact ⟨hc, List.mem_singleton_self c⟩

/-! ### Readers and what they have gathered -/

variable {α : Type} [Scalar α]

/-- **The reader `r` has built the expressions `es` since it was `r₀`**, and has registered their
variables, which names ahead of `r₀` spell. -/
structure Gathered (r₀ : Reader) (es : List (Expr α)) (r : Reader) : Prop where
  wellFormed : ∀ e ∈ es, e.WellFormed
  mem_vars (c : Char) : c ∈ r.vars ↔ c ∈ r₀.vars ∨ ∃ e ∈ es, Occurs (.var c) e
  spelled (c : Char) : (∃ e ∈ es, Occurs (.var c) e) → Spelled r₀.ahead c
  suffix : r.ahead <:+ r₀.ahead

namespace Gathered

variable {r₀ r r' : Reader} {as es : List (Expr α)} {e : Expr α} {t : Token} {ts : List Token}

theorem start (r : Reader) : Gathered (α := α) r [] r := by
  constructor <;> simp

theorem build (as : List (Expr α)) (h : Gathered r₀ (as ++ es) r) (he : BuiltFrom as e) :
    Gathered r₀ (e :: es) r := by
  obtain ⟨has, hes⟩ := List.forall_mem_append.mp h.wellFormed
  have hvars (c : Char) :
      (∃ a ∈ e :: es, Occurs (.var c) a) ↔ ∃ a ∈ as ++ es, Occurs (.var c) a := by
    simp [he.vars c, or_and_right, exists_or]
  constructor
  · exact List.forall_mem_cons.mpr ⟨he.wellFormed has, hes⟩
  · intro c
    rw [hvars]
    exact h.mem_vars c
  · intro c hc
    exact h.spelled c ((hvars c).mp hc)
  · exact h.suffix

theorem const (h : Gathered r₀ es r) (x : α) : Gathered r₀ (.const x :: es) r := by
  refine h.build [] ⟨fun _ => .const x, ?_⟩
  simp

theorem perm (h : Gathered r₀ as r) (hperm : as.Perm es) : Gathered r₀ es r := by
  obtain ⟨hwell, hvars, hspelled, hsuffix⟩ := h
  simp only [hperm.mem_iff] at hwell hvars hspelled
  exact ⟨hwell, hvars, hspelled, hsuffix⟩

/-- The reader may move on. -/
theorem passes (h : Gathered r₀ es r) (hpass : Passes r ts r') (hvars : r'.vars = r.vars) :
    Gathered r₀ es r' := by
  refine ⟨h.wellFormed, fun c => by rw [hvars, h.mem_vars], h.spelled, ?_⟩
  exact List.IsSuffix.trans ⟨ts, hpass.ahead.symm⟩ h.suffix

/-- A variable that a name spells may be registered. -/
theorem register (h : Gathered r₀ es r) {c : Char} (hc : Spelled r₀.ahead c) :
    Gathered r₀ (.var c :: es) { r with vars := r.vars.insert c } := by
  constructor
  · exact List.forall_mem_cons.mpr ⟨.var c, h.wellFormed⟩
  · intro d
    simp [h.mem_vars d, or_left_comm]
  · intro d hd
    simp only [List.mem_cons, exists_eq_or_imp, Expr.Occurs.var_iff, Expr.var.injEq] at hd
    rcases hd with rfl | hd
    · exact hc
    · exact h.spelled d hd
  · exact h.suffix

end Gathered

/-! ### Basic actions -/

section Basic
variable {r₀ r r' : Reader} {es : List (Expr α)} {t : Token} {kinds : List TokenKind}
  {kind : TokenKind} {b : Bool}

theorem Gathered.next (h : Gathered r₀ es r) (hread : Read.next r = .done t r') :
    Gathered r₀ es r' := by
  refine h.passes (Read.next_done hread) ?_
  unfold Read.next at hread
  split at hread <;> cases hread
  rfl

theorem Gathered.eat (h : Gathered r₀ es r) (hread : Read.eat kind r = .done b r') :
    Gathered r₀ es r' := by
  unfold Read.eat at hread
  split at hread
  · next t ahead hahead =>
    split_ifs at hread <;> cases hread
    · exact h.passes (show Passes r [t] _ from ⟨hahead, rfl⟩) rfl
    · exact h
  · cases hread
    exact h

theorem Gathered.expect (h : Gathered r₀ es r) (hread : Read.expect kinds r = .done t r') :
    Gathered r₀ es r' := by
  unfold Read.expect at hread
  split at hread
  · split_ifs at hread
    exact h.next hread
  · cases hread

end Basic

/-! ### What the actions gather -/

variable [Numeral α]

/-- **Whatever the actions with this fuel read is gathered.** -/
structure Gathers (α : Type) [Scalar α] [Numeral α] (fuel : Nat) : Prop where
  sum {r₀ r r' : Reader} {es : List (Expr α)} {e : Expr α} : Gathered r₀ es r →
    Read.sum fuel r = .done e r' → Gathered r₀ (e :: es) r'
  terms {r₀ r r' : Reader} {es read : List (Expr α)} {e : Expr α} : read ≠ [] →
    Gathered r₀ (read ++ es) r → Read.terms fuel read r = .done e r' → Gathered r₀ (e :: es) r'
  product {r₀ r r' : Reader} {es : List (Expr α)} {e : Expr α} : Gathered r₀ es r →
    Read.product fuel r = .done e r' → Gathered r₀ (e :: es) r'
  factors {r₀ r r' : Reader} {es read : List (Expr α)} {e : Expr α} : read ≠ [] →
    Gathered r₀ (read ++ es) r → Read.factors fuel read r = .done e r' → Gathered r₀ (e :: es) r'
  quotient {r₀ r r' : Reader} {es : List (Expr α)} {e : Expr α} : Gathered r₀ es r →
    Read.quotient fuel r = .done e r' → Gathered r₀ (e :: es) r'
  power {r₀ r r' : Reader} {es : List (Expr α)} {e : Expr α} : Gathered r₀ es r →
    Read.power fuel r = .done e r' → Gathered r₀ (e :: es) r'
  atom {r₀ r r' : Reader} {es : List (Expr α)} {e : Expr α} : Gathered r₀ es r →
    Read.atom fuel r = .done e r' → Gathered r₀ (e :: es) r'
  group {r₀ r r' : Reader} {es : List (Expr α)} {e : Expr α} : Gathered r₀ es r →
    Read.group fuel r = .done e r' → Gathered r₀ (e :: es) r'
  args {r₀ r r' : Reader} {as es : List (Expr α)} : Gathered r₀ es r →
    Read.args fuel r = .done as r' → Gathered r₀ (as ++ es) r'
  moreArgs {r₀ r r' : Reader} {as es read : List (Expr α)} : Gathered r₀ (read ++ es) r →
    Read.moreArgs fuel read r = .done as r' → Gathered r₀ (as ++ es) r'
  name {r₀ r r' : Reader} {es : List (Expr α)} {e : Expr α} {t : Token} : t ∈ r₀.ahead →
    t.kind = .name → Gathered r₀ es r → Read.name fuel t r = .done e r' →
    Gathered r₀ (e :: es) r'
  application {r₀ r r' : Reader} {es : List (Expr α)} {e : Expr α} {f : Callable} {span : Span} :
    Gathered r₀ es r → Read.application fuel f span r = .done e r' → Gathered r₀ (e :: es) r'
  logarithm {r₀ r r' : Reader} {es : List (Expr α)} {e : Expr α} : Gathered r₀ es r →
    Read.logarithm fuel r = .done e r' → Gathered r₀ (e :: es) r'

section Steps
variable {fuel : Nat} (hs : Gathers α fuel) {r₀ r r' : Reader}
  {es : List (Expr α)} {e : Expr α}
include hs

theorem sum_gathers [OrderedScalar α] (hr : Gathered r₀ es r)
    (h : Read.sum (fuel + 1) r = .done e r') : Gathered r₀ (e :: es) r' := by
  rw [Read.sum, Read.bind_done_iff] at h
  obtain ⟨minus, r₁, hminus, h⟩ := h
  have h₁ := hr.eat hminus
  cases minus with
  | true =>
    obtain ⟨first, r₂, hfirst, h⟩ := Read.bind_done_iff.mp h
    have h₂ := (hs.product h₁ hfirst).build [first] (.neg first)
    exact hs.terms (List.cons_ne_nil first.neg []) h₂ h
  | false =>
    obtain ⟨first, r₂, hfirst, h⟩ := Read.bind_done_iff.mp h
    exact hs.terms (List.cons_ne_nil first []) (hs.product h₁ hfirst) h

theorem terms_gathers [OrderedScalar α] {read : List (Expr α)} (hne : read ≠ [])
    (hr : Gathered r₀ (read ++ es) r) (h : Read.terms (fuel + 1) read r = .done e r') :
    Gathered r₀ (e :: es) r' := by
  rw [Read.terms, Read.bind_done_iff] at h
  obtain ⟨plus, r₁, hplus, h⟩ := h
  have h₁ := hr.eat hplus
  cases plus with
  | true =>
    obtain ⟨term, r₂, hterm, h⟩ := Read.bind_done_iff.mp h
    exact hs.terms (List.cons_ne_nil _ _) (hs.product h₁ hterm) h
  | false =>
    obtain ⟨minus, r₂, hminus, h⟩ := Read.bind_done_iff.mp h
    have h₂ := h₁.eat hminus
    cases minus with
    | true =>
      obtain ⟨term, r₃, hterm, h⟩ := Read.bind_done_iff.mp h
      have h₃ := (hs.product h₂ hterm).build [term] (.neg term)
      exact hs.terms (List.cons_ne_nil _ _) h₃ h
    | false =>
      obtain ⟨rfl, rfl⟩ := Read.pure_done_iff.mp h
      have hcombine := BuiltFrom.combine .sum (List.reverse_ne_nil_iff.mpr hne)
      exact h₂.build read (hcombine.perm read.reverse_perm)

theorem product_gathers (hr : Gathered r₀ es r) (h : Read.product (fuel + 1) r = .done e r') :
    Gathered r₀ (e :: es) r' := by
  rw [Read.product, Read.bind_done_iff] at h
  obtain ⟨first, r₁, hfirst, h⟩ := h
  exact hs.factors (List.cons_ne_nil first []) (hs.quotient hr hfirst) h

theorem factors_gathers [OrderedScalar α] {read : List (Expr α)} (hne : read ≠ [])
    (hr : Gathered r₀ (read ++ es) r) (h : Read.factors (fuel + 1) read r = .done e r') :
    Gathered r₀ (e :: es) r' := by
  rw [Read.factors, Read.bind_done_iff] at h
  obtain ⟨times, r₁, htimes, h⟩ := h
  have h₁ := hr.eat htimes
  replace h := Read.get_bind_done_iff.mp h
  split_ifs at h
  · obtain ⟨factor, r₂, hfactor, h⟩ := Read.bind_done_iff.mp h
    exact hs.factors (List.cons_ne_nil _ _) (hs.quotient h₁ hfactor) h
  · obtain ⟨rfl, rfl⟩ := Read.pure_done_iff.mp h
    have hcombine := BuiltFrom.combine .product (List.reverse_ne_nil_iff.mpr hne)
    exact h₁.build read (hcombine.perm read.reverse_perm)

theorem quotient_gathers (hr : Gathered r₀ es r) (h : Read.quotient (fuel + 1) r = .done e r') :
    Gathered r₀ (e :: es) r' := by
  rw [Read.quotient, Read.bind_done_iff] at h
  obtain ⟨num, r₁, hnum, h⟩ := h
  have h₁ := hs.power hr hnum
  obtain ⟨slash, r₂, hslash, h⟩ := Read.bind_done_iff.mp h
  have h₂ := h₁.eat hslash
  cases slash with
  | true =>
    obtain ⟨den, r₃, hden, h⟩ := Read.bind_done_iff.mp h
    obtain ⟨rfl, rfl⟩ := Read.pure_done_iff.mp h
    exact (hs.quotient h₂ hden).build [den, num]
      ((BuiltFrom.binary _ num den).perm (.swap den num []))
  | false =>
    obtain ⟨rfl, rfl⟩ := Read.pure_done_iff.mp h
    exact h₂

theorem power_gathers [OrderedScalar α] (hr : Gathered r₀ es r)
    (h : Read.power (fuel + 1) r = .done e r') : Gathered r₀ (e :: es) r' := by
  rw [Read.power, Read.bind_done_iff] at h
  obtain ⟨minus, r₁, hminus, h⟩ := h
  have h₁ := hr.eat hminus
  cases minus with
  | true =>
    obtain ⟨inner, r₂, hinner, h⟩ := Read.bind_done_iff.mp h
    obtain ⟨rfl, rfl⟩ := Read.pure_done_iff.mp h
    exact (hs.power h₁ hinner).build [inner] (.neg inner)
  | false =>
    obtain ⟨base, r₂, hbase, h⟩ := Read.bind_done_iff.mp h
    have h₂ := hs.atom h₁ hbase
    obtain ⟨caret, r₃, hcaret, h⟩ := Read.bind_done_iff.mp h
    have h₃ := h₂.eat hcaret
    cases caret with
    | true =>
      obtain ⟨exponent, r₄, hexponent, h⟩ := Read.bind_done_iff.mp h
      obtain ⟨rfl, rfl⟩ := Read.pure_done_iff.mp h
      exact (hs.power h₃ hexponent).build [exponent, base]
        ((BuiltFrom.binary _ base exponent).perm (.swap exponent base []))
    | false =>
      obtain ⟨rfl, rfl⟩ := Read.pure_done_iff.mp h
      exact h₃

theorem atom_gathers (hr : Gathered r₀ es r) (h : Read.atom (fuel + 1) r = .done e r') :
    Gathered r₀ (e :: es) r' := by
  rw [Read.atom, Read.bind_done_iff] at h
  obtain ⟨t, r₁, hnext, h⟩ := h
  have h₁ := hr.next hnext
  have ht : t ∈ r₀.ahead := by
    refine hr.suffix.subset ?_
    rw [(Read.next_done hnext).ahead]
    exact List.mem_append_left _ (List.mem_singleton_self t)
  cases hkind : t.kind with
  | number =>
    rw [hkind] at h
    unfold Read.number at h
    rcases hx : (Numeral.read t.lexeme : Option α) with _ | x
    · rw [hx] at h
      cases h
    · rw [hx] at h
      obtain ⟨rfl, rfl⟩ := Read.pure_done_iff.mp h
      exact h₁.const x
  | name =>
    rw [hkind] at h
    exact hs.name ht hkind h₁ h
  | opening =>
    rw [hkind] at h
    exact hs.group h₁ h
  | _ =>
    rw [hkind] at h
    cases h

theorem group_gathers (hr : Gathered r₀ es r) (h : Read.group (fuel + 1) r = .done e r') :
    Gathered r₀ (e :: es) r' := by
  rw [Read.group, Read.bind_done_iff] at h
  obtain ⟨inner, r₁, hinner, h⟩ := h
  obtain ⟨u, r₂, hexpect, h⟩ := Read.bind_done_iff.mp h
  obtain ⟨rfl, rfl⟩ := Read.pure_done_iff.mp h
  exact (hs.sum hr hinner).expect hexpect

theorem args_gathers {as : List (Expr α)} (hr : Gathered r₀ es r)
    (h : Read.args (fuel + 1) r = .done as r') : Gathered r₀ (as ++ es) r' := by
  rw [Read.args, Read.bind_done_iff] at h
  obtain ⟨t, r₁, hexpect, h⟩ := h
  obtain ⟨first, r₂, hfirst, h⟩ := Read.bind_done_iff.mp h
  refine hs.moreArgs ?_ h
  exact hs.sum (hr.expect hexpect) hfirst

theorem moreArgs_gathers {read as : List (Expr α)} (hr : Gathered r₀ (read ++ es) r)
    (h : Read.moreArgs (fuel + 1) read r = .done as r') : Gathered r₀ (as ++ es) r' := by
  rw [Read.moreArgs, Read.bind_done_iff] at h
  obtain ⟨t, r₁, hexpect, h⟩ := h
  have h₁ := hr.expect hexpect
  split_ifs at h
  · obtain ⟨rfl, rfl⟩ := Read.pure_done_iff.mp h
    exact h₁.perm (read.reverse_perm.symm.append_right es)
  · obtain ⟨arg, r₂, harg, h⟩ := Read.bind_done_iff.mp h
    refine hs.moreArgs ?_ h
    exact hs.sum h₁ harg

theorem name_gathers [OrderedScalar α] {t : Token} (ht : t ∈ r₀.ahead) (hkind : t.kind = .name)
    (hr : Gathered r₀ es r) (h : Read.name (fuel + 1) t r = .done e r') :
    Gathered r₀ (e :: es) r' := by
  rw [Read.name] at h
  cases htail : (NameParts.ofName t.lexeme).tail with
  | constant c =>
    rw [htail] at h
    obtain ⟨hfront, rfl⟩ := Grammar.applyFront_done_iff.mp h
    exact (hr.const c.value).build [_] (.appliedAll hfront)
  | «variable» c =>
    rw [htail] at h
    obtain ⟨u, r₁, hregister, h⟩ := Read.bind_done_iff.mp h
    obtain ⟨hfront, rfl⟩ := Grammar.applyFront_done_iff.mp h
    obtain ⟨hc, hmem⟩ := split_variable _ htail
    cases hregister
    exact (hr.register ⟨hc, t, ht, hkind, hmem⟩).build [_] (.appliedAll hfront)
  | function f =>
    rw [htail] at h
    obtain ⟨operand, r₁, hoperand, h⟩ := Read.bind_done_iff.mp h
    obtain ⟨hfront, rfl⟩ := Grammar.applyFront_done_iff.mp h
    exact (hs.application hr hoperand).build [_] (.appliedAll hfront)
  | unknown =>
    rw [htail] at h
    cases h

theorem operand_gathers [OrderedScalar α] {f : Callable} {span : Span} (hr : Gathered r₀ es r)
    (h : Read.operand fuel f span r = .done e r') : Gathered r₀ (e :: es) r' := by
  replace h := Read.get_bind_done_iff.mp h
  split_ifs at h
  · obtain ⟨given, r₁, hgiven, h⟩ := Read.bind_done_iff.mp h
    obtain ⟨he, rfl⟩ := Grammar.call_done_iff.mp (Read.get_bind_done_iff.mp h)
    exact (hs.args hr hgiven).build given (.applied he)
  · obtain ⟨a, r₁, ha, h⟩ := Read.bind_done_iff.mp h
    obtain ⟨he, rfl⟩ := Grammar.call_done_iff.mp h
    exact (hs.atom hr ha).build [a] (.applied he)

theorem logarithm_gathers (hr : Gathered r₀ es r)
    (h : Read.logarithm (fuel + 1) r = .done e r') : Gathered r₀ (e :: es) r' := by
  rw [Read.logarithm, Read.bind_done_iff] at h
  obtain ⟨base, r₁, hbase, h⟩ := h
  have h₁ := hs.atom hr hbase
  obtain ⟨underscore, r₂, heat, h⟩ := Read.bind_done_iff.mp h
  have h₂ := h₁.eat heat
  have hlog (arg : Expr α) : BuiltFrom [arg, base] (.log base arg) :=
    (BuiltFrom.binary _ base arg).perm (.swap arg base [])
  cases underscore with
  | true =>
    obtain ⟨arg, r₃, harg, h⟩ := Read.bind_done_iff.mp h
    obtain ⟨rfl, rfl⟩ := Read.pure_done_iff.mp h
    exact (hs.atom h₂ harg).build [arg, base] (hlog arg)
  | false =>
    obtain ⟨u, r₃, hexpect, h⟩ := Read.bind_done_iff.mp h
    obtain ⟨arg, r₄, harg, h⟩ := Read.bind_done_iff.mp h
    obtain ⟨rfl, rfl⟩ := Read.pure_done_iff.mp h
    exact (hs.group (h₂.expect hexpect) harg).build [arg, base] (hlog arg)

theorem application_gathers [OrderedScalar α] {f : Callable} {span : Span} (hr : Gathered r₀ es r)
    (h : Read.application (fuel + 1) f span r = .done e r') : Gathered r₀ (e :: es) r' := by
  by_cases hf : f = .log
  · subst hf
    rw [Read.application_log, Read.bind_done_iff] at h
    obtain ⟨underscore, r₁, heat, h⟩ := h
    have h₁ := hr.eat heat
    cases underscore with
    | true => exact hs.logarithm h₁ h
    | false => exact operand_gathers hs h₁ h
  · rw [Read.application_eq_operand hf] at h
    exact operand_gathers hs hr h

end Steps

/-- **Whatever the parser reads is gathered**, with any fuel. -/
theorem gathers [OrderedScalar α] : ∀ fuel : Nat, Gathers α fuel
  | 0 =>
    { sum := fun _ h => nomatch h
      terms := fun _ _ h => nomatch h
      product := fun _ h => nomatch h
      factors := fun _ _ h => nomatch h
      quotient := fun _ h => nomatch h
      power := fun _ h => nomatch h
      atom := fun _ h => nomatch h
      group := fun _ h => nomatch h
      args := fun _ h => nomatch h
      moreArgs := fun _ h => nomatch h
      name := fun _ _ _ h => nomatch h
      application := fun _ h => nomatch h
      logarithm := fun _ h => nomatch h }
  | fuel + 1 =>
    { sum := sum_gathers (gathers fuel)
      terms := terms_gathers (gathers fuel)
      product := product_gathers (gathers fuel)
      factors := factors_gathers (gathers fuel)
      quotient := quotient_gathers (gathers fuel)
      power := power_gathers (gathers fuel)
      atom := atom_gathers (gathers fuel)
      group := group_gathers (gathers fuel)
      args := args_gathers (gathers fuel)
      moreArgs := moreArgs_gathers (gathers fuel)
      name := name_gathers (gathers fuel)
      application := application_gathers (gathers fuel)
      logarithm := logarithm_gathers (gathers fuel) }

end SymbolicAlgebra
