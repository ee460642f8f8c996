import Mathlib.Data.List.Forall2
import SymbolicAlgebra.Proofs.Reader.Faults
import SymbolicAlgebra.Reader.Parse

/-! # Readers side by side

Two readers stand over tokens that correspond, one by one: of the same kind, and with the same
characters unless they are brackets. The places of the tokens may be different, and so may what lies
between them. The same action takes two such readers to two such readers, and ends in the same way
on both: with the same value, or with the same fault at corresponding places. The second action may
have more fuel than the first one. By induction on the fuel, the parser is of this kind
(`mirroring`).

Equal tokens correspond too, and then places and faults are equal. So more fuel does not change what
an action does that ends (`Correspondence.Outcomes.eq_of_same`). -/

namespace SymbolicAlgebra

/-- **Two tokens that read the same.** The shape of a bracket does not matter. -/
structure Token.Mirrors (t u : Token) : Prop where
  kind : t.kind = u.kind
  lexeme : t.kind ≠ .opening → t.kind ≠ .closing → t.lexeme = u.lexeme

theorem Token.Mirrors.refl (t : Token) : t.Mirrors t := ⟨rfl, fun _ _ => rfl⟩

theorem Token.Mirrors.toString_eq {t u : Token} (h : t.Mirrors u) (hopening : t.kind ≠ .opening)
    (hclosing : t.kind ≠ .closing) : t.slice.toString = u.slice.toString :=
  congrArg String.ofList (h.lexeme hopening hclosing)

theorem Token.Mirrors.operator_eq {t u : Token} (h : t.Mirrors u)
    (hoperator : t.kind.isOperator = true) : t.slice.toString = u.slice.toString := by
  refine h.toString_eq (fun hkind => ?_) (fun hkind => ?_) <;> rw [hkind] at hoperator <;>
    cases hoperator

/-- Which tokens of two texts correspond, and how long the texts are. -/
structure Correspondence where
  Pairs : Token → Token → Prop
  length : Nat
  length' : Nat

namespace Correspondence

variable {β γ β' γ' : Type} (C : Correspondence)

/-- Corresponding tokens read the same. -/
structure Sound : Prop where
  mirrors {t u : Token} : C.Pairs t u → t.Mirrors u

/-- Two places where something starts: the starts of corresponding tokens, or places equally far
inside them if their characters are the same. -/
inductive Starts : Nat → Nat → Prop where
  | token {t u : Token} : C.Pairs t u → Starts t.span.start u.span.start
  | inside {t u : Token} {k : Nat} : C.Pairs t u → t.lexeme = u.lexeme → 0 < k →
    k < Text.bytes t.lexeme → Starts (t.span.start + k) (u.span.start + k)

/-- Two places where something stops: the ends of corresponding tokens, or places equally far inside
them if their characters are the same. -/
inductive Stops : Nat → Nat → Prop where
  | token {t u : Token} : C.Pairs t u → Stops t.span.stop u.span.stop
  | inside {t u : Token} {k : Nat} : C.Pairs t u → t.lexeme = u.lexeme → 0 < k →
    k < Text.bytes t.lexeme → Stops (t.span.start + k) (u.span.start + k)

/-- **Two spans between corresponding places.** -/
structure Spans (s s' : Span) : Prop where
  start : C.Starts s.start s'.start
  stop : C.Stops s.stop s'.stop

/-- **Two faults of the same cause** at corresponding spans, or at the ends of both texts, or at
both texts as a whole. -/
inductive Faults : Fault → Fault → Prop where
  | atTokens {spans spans' : List Span} (cause : Cause) :
    List.Forall₂ C.Spans spans spans' → Faults ⟨spans, cause⟩ ⟨spans', cause⟩
  | atEnd :
    Faults (.on ⟨C.length, C.length⟩ .unexpectedEnd) (.on ⟨C.length', C.length'⟩ .unexpectedEnd)
  | atText : Faults (.on ⟨0, C.length⟩ .emptyExpression) (.on ⟨0, C.length'⟩ .emptyExpression)

/-- **Two readers of the two texts at the same place**, with the same variables. -/
structure Readers (r r' : Reader) : Prop where
  length : r.length = C.length
  length' : r'.length = C.length'
  behind : List.Forall₂ C.Pairs r.behind r'.behind
  ahead : List.Forall₂ C.Pairs r.ahead r'.ahead
  vars : r.vars = r'.vars

/-- **Two outcomes in the same way**, with values that are related, unless the fuel runs out for the
first one. -/
def Outcomes (V : β → γ → Prop) : Outcome β → Outcome γ → Prop
  | .done x r, .done y r' => V x y ∧ C.Readers r r'
  | .failed fault r, .failed fault' r' => C.Faults fault fault' ∧ C.Readers r r'
  | .spent, _ => True
  | _, _ => False

/-- **Two actions that end in the same way** on readers side by side. -/
def Actions (V : β → γ → Prop) (a : Read β) (b : Read γ) : Prop :=
  ∀ r r' : Reader, C.Readers r r' → C.Outcomes V (a r) (b r')

variable {C} {V : β → γ → Prop} {V' : β' → γ' → Prop} {t u : Token} {s s' : Span}

/-! ### Places -/

theorem Starts.before (h : C.Pairs t u) (hlexeme : t.lexeme = u.lexeme) {k : Nat}
    (hk : k < Text.bytes t.lexeme) : C.Starts (t.span.start + k) (u.span.start + k) := by
  rcases Nat.eq_zero_or_pos k with rfl | hpos
  · exact .token h
  · exact .inside h hlexeme hpos hk

theorem Stops.behind (h : C.Pairs t u) (hlexeme : t.lexeme = u.lexeme) {k : Nat} (hpos : 0 < k)
    (hk : k ≤ Text.bytes t.lexeme) : C.Stops (t.span.start + k) (u.span.start + k) := by
  rcases Nat.lt_or_eq_of_le hk with hlt | rfl
  · exact .inside h hlexeme hpos hlt
  · have hstop : u.span.stop = u.span.start + Text.bytes t.lexeme := by rw [hlexeme]; rfl
    exact hstop ▸ .token h

/-- A place before the ends of corresponding tokens, counted from there. -/
theorem Starts.beforeStop (h : C.Pairs t u) (hlexeme : t.lexeme = u.lexeme) {k : Nat}
    (hk : k ≤ Text.bytes t.lexeme) (hpos : 0 < Text.bytes t.lexeme → 0 < k) :
    C.Starts (t.span.stop - k) (u.span.stop - k) := by
  have ht : t.span.stop - k = t.span.start + (Text.bytes t.lexeme - k) := Nat.add_sub_assoc hk _
  have hu : u.span.stop - k = u.span.start + (Text.bytes t.lexeme - k) := by
    rw [hlexeme] at hk ⊢
    exact Nat.add_sub_assoc hk _
  rw [ht, hu]
  rcases Nat.eq_zero_or_pos (Text.bytes t.lexeme) with hzero | hbytes
  · rw [hzero, Nat.zero_sub]
    exact .token h
  · exact .before h hlexeme (Nat.sub_lt hbytes (hpos hbytes))

theorem Spans.token (h : C.Pairs t u) : C.Spans t.span u.span := ⟨.token h, .token h⟩

theorem Faults.on (h : C.Spans s s') (cause : Cause) : C.Faults (.on s cause) (.on s' cause) :=
  .atTokens cause (.cons h .nil)

theorem Faults.unexpected (hC : C.Sound) (h : C.Pairs t u) (kinds : List TokenKind) :
    C.Faults (Read.unexpected kinds t) (Read.unexpected kinds u) := by
  have hon := Faults.on (.token h)
  unfold Read.unexpected
  rw [← (hC.mirrors h).kind]
  split_ifs with _ hsymbol
  · exact hon _
  · rw [(hC.mirrors h).toString_eq (by simp [hsymbol]) (by simp [hsymbol])]
    exact hon _
  · exact hon _

/-! ### Readers -/

namespace Readers

variable {r r' : Reader} (hr : C.Readers r r')
include hr

theorem previous?_rel : Option.Rel C.Pairs r.previous? r'.previous? := by
  have hbehind := hr.behind
  unfold Reader.previous?
  generalize r.behind = ts, r'.behind = us at hbehind
  cases hbehind with
  | nil => exact .none
  | cons h _ => exact .some h

theorem ahead_cases : (r.ahead = [] ∧ r'.ahead = []) ∨ ∃ t u ts us,
    r.ahead = t :: ts ∧ r'.ahead = u :: us ∧ C.Pairs t u ∧ List.Forall₂ C.Pairs ts us := by
  have hahead := hr.ahead
  generalize r.ahead = ts, r'.ahead = us at hahead
  cases hahead with
  | nil => exact .inl ⟨rfl, rfl⟩
  | cons h hs => exact .inr ⟨_, _, _, _, rfl, rfl, h, hs⟩

theorem peek?_eq (hC : C.Sound) : r.peek? = r'.peek? := by
  rcases hr.ahead_cases with ⟨h, h'⟩ | ⟨t, u, ts, us, h, h', htu, -⟩
  · rw [Reader.peek?_eq_none h, Reader.peek?_eq_none h']
  · rw [Reader.peek?_eq_kind h, Reader.peek?_eq_kind h', (hC.mirrors htu).kind]

theorem atImplicitProduct_eq (hC : C.Sound) :
    Read.atImplicitProduct r = Read.atImplicitProduct r' := by
  have hrel := hr.previous?_rel
  unfold Read.atImplicitProduct
  rw [hr.peek?_eq hC]
  generalize r.previous? = t?, r'.previous? = u? at hrel
  cases hrel with
  | none => rfl
  | some h => rw [Option.map_some, Option.map_some, (hC.mirrors h).kind]

/-- At the ends of both texts. -/
theorem faults_end (h : r.ahead = []) (h' : r'.ahead = []) :
    C.Faults (.on r.span .unexpectedEnd) (.on r'.span .unexpectedEnd) := by
  have hspan {r : Reader} (h : r.ahead = []) : r.span = ⟨r.length, r.length⟩ := by
    simp [Reader.span, Reader.current?, Reader.endSpan, h]
  rw [hspan h, hspan h', hr.length, hr.length']
  exact .atEnd

theorem pass {ts us : List Token} (h : C.Pairs t u) (hahead : List.Forall₂ C.Pairs ts us) :
    C.Readers { r with behind := t :: r.behind, ahead := ts }
      { r' with behind := u :: r'.behind, ahead := us } :=
  ⟨hr.length, hr.length', .cons h hr.behind, hahead, hr.vars⟩

end Readers

/-! ### Actions -/

namespace Actions

open Read

theorem pure {x : β} {y : γ} (h : V x y) : C.Actions V (pure x : Read β) (pure y) :=
  fun _ _ hr => ⟨h, hr⟩

theorem fail {fault fault' : Fault} (h : C.Faults fault fault') :
    C.Actions V (fail fault) (fail fault') :=
  fun _ _ hr => ⟨h, hr⟩

theorem spent {b : Read γ} : C.Actions V (spent : Read β) b := fun _ _ _ => trivial

/-- **Actions one after the other.** -/
theorem bind {a : Read β} {b : Read γ} {f : β → Read β'} {g : γ → Read γ'}
    (hab : C.Actions V a b) (hfg : ∀ x y, V x y → C.Actions V' (f x) (g y)) :
    C.Actions V' (a >>= f) (b >>= g) := by
  intro r r' hr
  have h := hab r r' hr
  show C.Outcomes V' (Read.bind a f r) (Read.bind b g r')
  unfold Read.bind
  generalize a r = o at h
  generalize b r' = o' at h
  cases o with
  | done x r₁ =>
    cases o' with
    | done y r₁' => exact hfg x y h.1 _ _ h.2
    | _ => exact h.elim
  | failed fault r₁ =>
    cases o' with
    | failed fault' r₁' => exact h
    | _ => exact h.elim
  | spent => trivial

/-- Actions one after the other, with the same value in between. -/
theorem bind_eq {a b : Read β} {f : β → Read β'} {g : β → Read γ'} (hab : C.Actions Eq a b)
    (hfg : ∀ x, C.Actions V' (f x) (g x)) : C.Actions V' (a >>= f) (b >>= g) :=
  hab.bind fun x _ h => h ▸ hfg x

/-- What depends on the reader. -/
theorem get_bind {f : Reader → Read β} {g : Reader → Read γ}
    (h : ∀ r r', C.Readers r r' → C.Outcomes V (f r r) (g r' r')) :
    C.Actions V (get >>= f) (get >>= g) := h

theorem next : C.Actions C.Pairs next next := by
  intro r r' hr
  unfold Read.next
  rcases hr.ahead_cases with ⟨h, h'⟩ | ⟨t, u, ts, us, h, h', htu, htsus⟩
  · rw [h, h']
    exact ⟨hr.faults_end h h', hr⟩
  · rw [h, h']
    exact ⟨htu, hr.pass htu htsus⟩

theorem eat (hC : C.Sound) (kind : TokenKind) : C.Actions Eq (eat kind) (eat kind) := by
  intro r r' hr
  unfold Read.eat
  rcases hr.ahead_cases with ⟨h, h'⟩ | ⟨t, u, ts, us, h, h', htu, htsus⟩
  · rw [h, h']
    exact ⟨rfl, hr⟩
  · simp only [h, h', ← (hC.mirrors htu).kind]
    split_ifs
    · exact ⟨rfl, hr.pass htu htsus⟩
    · exact ⟨rfl, hr⟩

theorem expect (hC : C.Sound) (kinds : List TokenKind) :
    C.Actions C.Pairs (expect kinds) (expect kinds) := by
  intro r r' hr
  unfold Read.expect
  rcases hr.ahead_cases with ⟨h, h'⟩ | ⟨t, u, ts, us, h, h', htu, htsus⟩
  · rw [h, h']
    exact ⟨hr.faults_end h h', hr⟩
  · simp only [h, h', ← (hC.mirrors htu).kind]
    split_ifs
    · exact next r r' hr
    · exact ⟨.unexpected hC htu kinds, hr⟩

theorem register (name : Char) : C.Actions Eq (register name) (register name) :=
  fun _ _ hr =>
    ⟨rfl, hr.length, hr.length', hr.behind, hr.ahead, congrArg (VarSet.insert name) hr.vars⟩

section Calls
variable {α : Type} [Scalar α]

omit [Scalar α] in
theorem number [Numeral α] (hC : C.Sound) (h : C.Pairs t u) (hkind : t.kind = .number) :
    C.Actions Eq (number (α := α) t) (number u) := by
  have hm := hC.mirrors h
  unfold Read.number
  rw [← hm.lexeme (by simp [hkind]) (by simp [hkind]),
    ← hm.toString_eq (by simp [hkind]) (by simp [hkind])]
  split
  · exact pure rfl
  · exact fail (.on (.token h) _)

theorem call (f : Callable) (as : List (Expr α)) (h : C.Spans s s') :
    C.Actions Eq (call f as s) (call f as s') := by
  unfold Read.call
  split
  · exact pure rfl
  · exact fail (.on h _)

/-- Functions in front of a name are called equally far into it. -/
theorem applyFront (a : Expr α) (h : C.Pairs t u) (hlexeme : t.lexeme = u.lexeme) :
    ∀ {front : List Callable} {k : Nat},
      k + Text.bytes (front.flatMap fun f => f.name.toList) ≤ Text.bytes t.lexeme →
        C.Actions Eq (applyFront a (t.span.start + k) front) (applyFront a (u.span.start + k) front)
  | [], _, _ => pure rfl
  | f :: front, k, hk => by
    rw [List.flatMap_cons, Text.bytes_append, Callable.bytes_name, ← Nat.add_assoc] at hk
    have hpos := Grammar.name_pos f
    rw [String.length_toList] at hpos
    rw [Read.applyFront, Read.applyFront, Nat.add_assoc, Nat.add_assoc]
    refine (applyFront a h hlexeme hk).bind_eq fun inner => call f _ ⟨?_, ?_⟩
    · exact .before h hlexeme (by omega)
    · exact .behind h hlexeme (by omega) (by omega)

end Calls

end Actions

end Correspondence

/-! ### The parser -/

/-- What is left of a name after the functions in front is not empty, for a function that is all of
a name stands for itself. -/
theorem NameParts.bytes_text_pos : ∀ (fuel : Nat) {name : List Char}, 0 < Text.bytes name →
    0 < Text.bytes (split fuel name).text
  | 0, _, h => h
  | fuel + 1, name, h => by
    rcases hwhole : whole? name with _ | tail
    · rcases hprefix : Callable.ofPrefix? name with _ | f
      · rwa [Grammar.split_unknown hwhole hprefix]
      · rw [Grammar.split_front hwhole hprefix]
        have happend := Grammar.eq_append_of_ofPrefix? hprefix
        refine bytes_text_pos fuel ?_
        cases hdrop : name.drop f.name.length with
        | nil =>
          rw [hdrop, List.append_nil] at happend
          rw [happend, Grammar.whole?_name] at hwhole
          cases hwhole
        | cons c cs => exact Nat.add_pos_left c.utf8Size_pos _
    · rwa [Grammar.split_whole hwhole]

/-- **Actions of the parser end in the same way** on readers side by side, with this fuel and with
that one. -/
structure Mirroring (α : Type) [Scalar α] [Numeral α] (C : Correspondence) (fuel fuel' : Nat) :
    Prop where
  sum : C.Actions Eq (Read.sum (α := α) fuel) (Read.sum fuel')
  terms (read : List (Expr α)) : C.Actions Eq (Read.terms fuel read) (Read.terms fuel' read)
  product : C.Actions Eq (Read.product (α := α) fuel) (Read.product fuel')
  factors (read : List (Expr α)) : C.Actions Eq (Read.factors fuel read) (Read.factors fuel' read)
  quotient : C.Actions Eq (Read.quotient (α := α) fuel) (Read.quotient fuel')
  power : C.Actions Eq (Read.power (α := α) fuel) (Read.power fuel')
  atom : C.Actions Eq (Read.atom (α := α) fuel) (Read.atom fuel')
  group : C.Actions Eq (Read.group (α := α) fuel) (Read.group fuel')
  args : C.Actions Eq (Read.args (α := α) fuel) (Read.args fuel')
  moreArgs (read : List (Expr α)) :
    C.Actions Eq (Read.moreArgs fuel read) (Read.moreArgs fuel' read)
  name {t u : Token} : C.Pairs t u → t.kind = .name →
    C.Actions Eq (Read.name (α := α) fuel t) (Read.name fuel' u)
  application {s s' : Span} (f : Callable) : C.Spans s s' →
    C.Actions Eq (Read.application (α := α) fuel f s) (Read.application fuel' f s')
  logarithm : C.Actions Eq (Read.logarithm (α := α) fuel) (Read.logarithm fuel')

section Steps
variable {α : Type} [Scalar α] [Numeral α] {C : Correspondence} {fuel fuel' : Nat}
  (hs : Mirroring α C fuel fuel') (hC : C.Sound)
include hs hC

open Correspondence.Actions

theorem sum_mirrors : C.Actions Eq (Read.sum (α := α) (fuel + 1)) (Read.sum (fuel' + 1)) := by
  rw [Read.sum, Read.sum]
  refine (eat hC _).bind_eq fun minus => ?_
  cases minus with
  | true => exact hs.product.bind_eq fun _ => hs.terms _
  | false => exact hs.product.bind_eq fun _ => hs.terms _

theorem terms_mirrors (read : List (Expr α)) :
    C.Actions Eq (Read.terms (fuel + 1) read) (Read.terms (fuel' + 1) read) := by
  rw [Read.terms, Read.terms]
  refine (eat hC _).bind_eq fun plus => ?_
  cases plus with
  | true => exact hs.product.bind_eq fun _ => hs.terms _
  | false =>
    refine (eat hC _).bind_eq fun minus => ?_
    cases minus with
    | true => exact hs.product.bind_eq fun _ => hs.terms _
    | false => exact pure rfl

omit hC in
theorem product_mirrors :
    C.Actions Eq (Read.product (α := α) (fuel + 1)) (Read.product (fuel' + 1)) := by
  rw [Read.product, Read.product]
  exact hs.quotient.bind_eq fun _ => hs.factors _

theorem factors_mirrors (read : List (Expr α)) :
    C.Actions Eq (Read.factors (fuel + 1) read) (Read.factors (fuel' + 1) read) := by
  rw [Read.factors, Read.factors]
  refine (eat hC _).bind_eq fun times => get_bind fun r r' hr => ?_
  rw [hr.atImplicitProduct_eq hC]
  split_ifs
  · exact hs.quotient.bind_eq (fun _ => hs.factors _) r r' hr
  · exact pure rfl r r' hr

theorem quotient_mirrors :
    C.Actions Eq (Read.quotient (α := α) (fuel + 1)) (Read.quotient (fuel' + 1)) := by
  rw [Read.quotient, Read.quotient]
  refine hs.power.bind_eq fun _ => (eat hC _).bind_eq fun slash => ?_
  cases slash with
  | true => exact hs.quotient.bind_eq fun _ => pure rfl
  | false => exact pure rfl

theorem power_mirrors :
    C.Actions Eq (Read.power (α := α) (fuel + 1)) (Read.power (fuel' + 1)) := by
  rw [Read.power, Read.power]
  refine (eat hC _).bind_eq fun minus => ?_
  cases minus with
  | true => exact hs.power.bind_eq fun _ => pure rfl
  | false =>
    refine hs.atom.bind_eq fun _ => (eat hC _).bind_eq fun caret => ?_
    cases caret with
    | true => exact hs.power.bind_eq fun _ => pure rfl
    | false => exact pure rfl

theorem atom_mirrors :
    C.Actions Eq (Read.atom (α := α) (fuel + 1)) (Read.atom (fuel' + 1)) := by
  rw [Read.atom, Read.atom]
  refine next.bind fun t u htu => ?_
  rw [← (hC.mirrors htu).kind]
  cases hkind : t.kind with
  | number => exact number hC htu hkind
  | name => exact hs.name htu hkind
  | opening => exact hs.group
  | _ => exact fail (.unexpected hC htu _)

theorem group_mirrors :
    C.Actions Eq (Read.group (α := α) (fuel + 1)) (Read.group (fuel' + 1)) := by
  rw [Read.group, Read.group]
  exact hs.sum.bind_eq fun _ => (expect hC _).bind fun _ _ _ => pure rfl

theorem args_mirrors :
    C.Actions Eq (Read.args (α := α) (fuel + 1)) (Read.args (fuel' + 1)) := by
  rw [Read.args, Read.args]
  exact (expect hC _).bind fun _ _ _ => hs.sum.bind_eq fun _ => hs.moreArgs _

theorem moreArgs_mirrors (read : List (Expr α)) :
    C.Actions Eq (Read.moreArgs (fuel + 1) read) (Read.moreArgs (fuel' + 1) read) := by
  rw [Read.moreArgs, Read.moreArgs]
  refine (expect hC _).bind fun t u htu => ?_
  rw [← (hC.mirrors htu).kind]
  split_ifs
  · exact pure rfl
  · exact hs.sum.bind_eq fun _ => hs.moreArgs _

/-- The parts of a name are equally far from both of its ends. -/
theorem name_mirrors {t u : Token} (h : C.Pairs t u) (hkind : t.kind = .name) :
    C.Actions Eq (Read.name (α := α) (fuel + 1) t) (Read.name (fuel' + 1) u) := by
  have hlexeme := (hC.mirrors h).lexeme (by simp [hkind]) (by simp [hkind])
  have htext := congrArg Text.bytes (NameParts.text_split t.lexeme.length t.lexeme)
  rw [Text.bytes_append] at htext
  have hfront (a : Expr α) : C.Actions Eq
      (Read.applyFront a t.span.start (NameParts.ofName t.lexeme).front)
      (Read.applyFront a u.span.start (NameParts.ofName t.lexeme).front) :=
    applyFront a h hlexeme (k := 0) (by rw [Nat.zero_add, htext]; exact Nat.le_add_right _ _)
  have htail : C.Spans ⟨t.span.stop - Text.bytes (NameParts.ofName t.lexeme).text, t.span.stop⟩
      ⟨u.span.stop - Text.bytes (NameParts.ofName t.lexeme).text, u.span.stop⟩ :=
    ⟨.beforeStop h hlexeme (htext ▸ Nat.le_add_left _ _) (NameParts.bytes_text_pos _), .token h⟩
  rw [Read.name, Read.name, ← hlexeme]
  cases (NameParts.ofName t.lexeme).tail with
  | constant c => exact hfront _
  | «variable» c => exact (register c).bind_eq fun _ => hfront _
  | function f => exact (hs.application f htail).bind_eq fun _ => hfront _
  | unknown => exact fail (.on htail _)

/-- A call stops where the token read last does. -/
theorem operand_mirrors (f : Callable) {s s' : Span} (h : C.Spans s s') :
    C.Actions Eq (Read.operand (α := α) fuel f s) (Read.operand fuel' f s') := by
  refine get_bind fun r r' hr => ?_
  rw [hr.peek?_eq hC]
  split_ifs
  · refine hs.args.bind_eq (fun given => get_bind fun r₁ r₁' hr₁ => ?_) r r' hr
    refine call f given ?_ r₁ r₁' hr₁
    refine ⟨h.start, ?_⟩
    have hrel := hr₁.previous?_rel
    generalize r₁.previous? = t?, r₁'.previous? = u? at hrel
    cases hrel with
    | none => exact h.stop
    | some htu => exact .token htu
  · exact hs.atom.bind_eq (fun _ => call f _ h) r r' hr

theorem application_mirrors (f : Callable) {s s' : Span} (h : C.Spans s s') :
    C.Actions Eq (Read.application (α := α) (fuel + 1) f s)
      (Read.application (fuel' + 1) f s') := by
  by_cases hf : f = .log
  · subst hf
    rw [Read.application_log, Read.application_log]
    refine (eat hC _).bind_eq fun underscore => ?_
    cases underscore with
    | true => exact hs.logarithm
    | false => exact operand_mirrors hs hC _ h
  · rw [Read.application_eq_operand hf, Read.application_eq_operand hf]
    exact operand_mirrors hs hC f h

theorem logarithm_mirrors :
    C.Actions Eq (Read.logarithm (α := α) (fuel + 1)) (Read.logarithm (fuel' + 1)) := by
  rw [Read.logarithm, Read.logarithm]
  refine hs.atom.bind_eq fun _ => (eat hC _).bind_eq fun underscore => ?_
  cases underscore with
  | true => exact hs.atom.bind_eq fun _ => pure rfl
  | false => exact (expect hC _).bind fun _ _ _ => hs.group.bind_eq fun _ => pure rfl

end Steps

/-- **The parser ends in the same way on readers side by side**, however much more fuel it has for
the second one. -/
theorem mirroring (α : Type) [Scalar α] [Numeral α] {C : Correspondence} (hC : C.Sound) :
    ∀ {fuel fuel' : Nat}, fuel ≤ fuel' → Mirroring α C fuel fuel'
  | 0, _, _ =>
    { sum := .spent
      terms := fun _ => .spent
      product := .spent
      factors := fun _ => .spent
      quotient := .spent
      power := .spent
      atom := .spent
      group := .spent
      args := .spent
      moreArgs := fun _ => .spent
      name := fun _ _ => .spent
      application := fun _ _ => .spent
      logarithm := .spent }
  | _ + 1, _ + 1, h =>
    have hs := mirroring α hC (Nat.le_of_succ_le_succ h)
    { sum := sum_mirrors hs hC
      terms := terms_mirrors hs hC
      product := product_mirrors hs
      factors := factors_mirrors hs hC
      quotient := quotient_mirrors hs hC
      power := power_mirrors hs hC
      atom := atom_mirrors hs hC
      group := group_mirrors hs hC
      args := args_mirrors hs hC
      moreArgs := moreArgs_mirrors hs hC
      name := name_mirrors hs hC
      application := fun f => application_mirrors hs hC f
      logarithm := logarithm_mirrors hs hC }

/-- What is left over is pointed at where the next token is. -/
theorem Reader.toEnd_mirrors (α : Type) [Scalar α] [Numeral α] {C : Correspondence} (hC : C.Sound)
    {fuel fuel' : Nat} (h : fuel ≤ fuel') :
    C.Actions Eq (toEnd (α := α) fuel) (toEnd fuel') := by
  refine (mirroring α hC h).sum.bind_eq fun e => Correspondence.Actions.get_bind fun r r' hr => ?_
  rcases hr.ahead_cases with ⟨hahead, hahead'⟩ | ⟨t, u, ts, us, hahead, hahead', htu, -⟩
  · rw [peek?_eq_none hahead, peek?_eq_none hahead']
    exact ⟨rfl, hr⟩
  · rw [peek?_eq_kind hahead, peek?_eq_kind hahead', ← (hC.mirrors htu).kind]
    have hspan : C.Spans r.span r'.span := by
      simpa [span, current?, hahead, hahead'] using Correspondence.Spans.token htu
    exact ⟨.on hspan _, hr⟩

/-! ### The same tokens -/

namespace Correspondence

variable {β : Type} {length : Nat}

/-- Every token of a text of this length corresponds to itself. -/
def same (length : Nat) : Correspondence := ⟨Eq, length, length⟩

theorem same_sound : (same length).Sound := ⟨fun h => h ▸ .refl _⟩

theorem Starts.eq_of_same {p q : Nat} (h : (same length).Starts p q) : p = q := by
  cases h with
  | token h => cases h; rfl
  | inside h _ _ _ => cases h; rfl

theorem Stops.eq_of_same {p q : Nat} (h : (same length).Stops p q) : p = q := by
  cases h with
  | token h => cases h; rfl
  | inside h _ _ _ => cases h; rfl

theorem Spans.eq_of_same {s s' : Span} (h : (same length).Spans s s') : s = s' := by
  cases s
  exact congrArg₂ Span.mk h.start.eq_of_same h.stop.eq_of_same

theorem forall₂_eq_iff {β : Type} {xs ys : List β} : List.Forall₂ Eq xs ys ↔ xs = ys :=
  iff_of_eq (congrFun (congrFun List.forall₂_eq_eq_eq xs) ys)

theorem Faults.eq_of_same {fault fault' : Fault} (h : (same length).Faults fault fault') :
    fault = fault' := by
  cases h with
  | atTokens cause hspans =>
    have hspans' := hspans.imp fun _ _ h => h.eq_of_same
    rw [forall₂_eq_iff.mp hspans']
  | atEnd => rfl
  | atText => rfl

theorem Readers.refl (r : Reader) : (same r.length).Readers r r :=
  ⟨rfl, rfl, forall₂_eq_iff.mpr rfl, forall₂_eq_iff.mpr rfl, rfl⟩

theorem Readers.eq_of_same {r r' : Reader} (h : (same length).Readers r r') : r = r' := by
  obtain ⟨_, behind, ahead, vars⟩ := r
  obtain ⟨_, behind', ahead', vars'⟩ := r'
  obtain rfl := h.length.trans h.length'.symm
  obtain rfl := forall₂_eq_iff.mp h.behind
  obtain rfl := forall₂_eq_iff.mp h.ahead
  obtain rfl := h.vars
  rfl

/-- **More fuel changes nothing** for an action that ends. -/
theorem Outcomes.eq_of_same {o o' : Outcome β} (h : (same length).Outcomes Eq o o')
    (ho : o ≠ .spent) : o = o' := by
  cases o with
  | done x r =>
    cases o' with
    | done x' r' => rw [h.1, h.2.eq_of_same]
    | _ => exact h.elim
  | failed fault r =>
    cases o' with
    | failed fault' r' => rw [h.1.eq_of_same, h.2.eq_of_same]
    | _ => exact h.elim
  | spent => exact absurd rfl ho

end Correspondence

end SymbolicAlgebra
