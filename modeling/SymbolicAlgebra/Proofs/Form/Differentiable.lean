import SymbolicAlgebra.Proofs.Double.Order
import SymbolicAlgebra.Proofs.Form.Derivative

/-! # Where differentiation fails

The rules go through an expression in a fixed order (`Expr.visited`), into everything but the
arguments of step functions, and the first node without a derivative is the fault
(`Expr.fault_derivative`). Having no such node lasts (`lasting_differentiable`), so neither
simplification nor differentiation can bring one about. -/

namespace SymbolicAlgebra

variable {α : Type}

/-- Whether the function is constant between its jumps. -/
def Unary.isStep : Unary → Bool
  | .bracket .floor => true
  | .bracket .ceil => true
  | _ => false

namespace Expr

/-! ### The order of visits -/

/-- The name of the function of a node, if it has no derivative. -/
def undifferentiable? : Expr α → Option String
  | sign _ => some "sign"
  | mod _ _ => some "mod"
  | min _ => some "min"
  | max _ => some "max"
  | _ => none

/-- Whether the rule of a node turns to the second argument first: of a power with no constant
part, and of a logarithm to a base that is no constant. -/
def visitsRightFirst : Binary → Expr α → Expr α → Bool
  | .power, a, b => !a.isConst && !b.isConst
  | .log, a, _ => !a.isConst
  | _, _, _ => false

mutual

/-- The nodes of the expression outside of step functions, in the order of the rules. -/
def visited : Expr α → List (Expr α)
  | const x => [const x]
  | var c => [var c]
  | unary f a => unary f a :: if f.isStep then [] else visited a
  | binary f a b =>
    binary f a b ::
      if visitsRightFirst f a b then visited b ++ visited a else visited a ++ visited b
  | nary f as => nary f as :: visitedList as

def visitedList : List (Expr α) → List (Expr α)
  | [] => []
  | a :: as => visited a ++ visitedList as

end

/-- The subexpressions that do not lie inside the argument of a step function. -/
inductive Exposed : Expr α → Expr α → Prop where
  | self (e : Expr α) : Exposed e e
  | inside {t a e : Expr α} (ha : a ∈ e.children)
      (he : ∀ b, e ≠ bracket .floor b ∧ e ≠ bracket .ceil b) (h : Exposed t a) : Exposed t e

namespace Exposed

theorem iff_self_or_inside {t e : Expr α} : Exposed t e ↔ t = e ∨
    (∀ b, e ≠ bracket .floor b ∧ e ≠ bracket .ceil b) ∧ ∃ a ∈ e.children, Exposed t a := by
  constructor
  · intro h
    cases h with
    | self => exact .inl rfl
    | inside ha he h => exact .inr ⟨he, _, ha, h⟩
  · rintro (rfl | ⟨he, a, ha, h⟩)
    · exact .self _
    · exact .inside ha he h

theorem const_iff {t : Expr α} {x : α} : Exposed t (const x) ↔ t = const x := by
  simp [iff_self_or_inside (e := const x), children]

theorem var_iff {t : Expr α} {c : Char} : Exposed t (var c) ↔ t = var c := by
  simp [iff_self_or_inside (e := var c), children]

theorem unary_iff {t a : Expr α} {f : Unary} :
    Exposed t (unary f a) ↔ t = unary f a ∨ (f.isStep = false ∧ Exposed t a) := by
  rw [iff_self_or_inside]
  rcases f with ⟨_ | _ | _⟩ | _ | _ <;> simp [children, Unary.isStep]

theorem binary_iff {t a b : Expr α} {f : Binary} :
    Exposed t (binary f a b) ↔ t = binary f a b ∨ Exposed t a ∨ Exposed t b := by
  simp [iff_self_or_inside (e := binary f a b), children]

theorem nary_iff {t : Expr α} {f : Nary} {as : List (Expr α)} :
    Exposed t (nary f as) ↔ t = nary f as ∨ ∃ a ∈ as, Exposed t a := by
  simp [iff_self_or_inside (e := nary f as), children]

end Exposed

mutual

/-- **The rules visit what is exposed.** -/
theorem mem_visited_iff : ∀ {e t : Expr α}, t ∈ visited e ↔ Exposed t e
  | const x, t => by rw [visited, List.mem_singleton, Exposed.const_iff]
  | var c, t => by rw [visited, List.mem_singleton, Exposed.var_iff]
  | unary f a, t => by
    rw [visited, List.mem_cons, Exposed.unary_iff, ← mem_visited_iff]
    rcases f.isStep <;> simp
  | binary f a b, t => by
    rw [visited, List.mem_cons, Exposed.binary_iff, ← mem_visited_iff, ← mem_visited_iff]
    split_ifs <;> simp [or_comm]
  | nary f as, t => by
    rw [visited, List.mem_cons, Exposed.nary_iff, mem_visitedList_iff]

theorem mem_visitedList_iff : ∀ {as : List (Expr α)} {t : Expr α},
    t ∈ visitedList as ↔ ∃ a ∈ as, Exposed t a
  | [], t => by simp [visitedList]
  | a :: as, t => by
    rw [visitedList, List.mem_append, mem_visited_iff, mem_visitedList_iff]
    simp

end

/-! ### The first fault -/

/-- The fault of the first node without a derivative. -/
def fault? (e : Expr α) : Option Cause :=
  e.visited.findSome? fun t => t.undifferentiable?.map Cause.undifferentiable

def faultList? (es : List (Expr α)) : Option Cause :=
  (visitedList es).findSome? fun t => t.undifferentiable?.map Cause.undifferentiable

theorem fault?_of_isConst {e : Expr α} (h : e.isConst = true) : e.fault? = none := by
  cases e with
  | const x => rfl
  | _ => cases h

theorem fault?_unary {f : Unary} {a : Expr α} (hf : f ≠ .sign) :
    (unary f a).fault? = if f.isStep then none else a.fault? := by
  have hself : (unary f a).undifferentiable? = none := by
    cases f with
    | sign => exact absurd rfl hf
    | _ => rfl
  rw [fault?, visited, List.findSome?_cons, hself, Option.map_none]
  split_ifs <;> rfl

theorem fault?_binary {f : Binary} {a b : Expr α} (hf : f ≠ .mod) : (binary f a b).fault? =
    if visitsRightFirst f a b then b.fault?.or a.fault? else a.fault?.or b.fault? := by
  have hself : (binary f a b).undifferentiable? = none := by
    cases f with
    | mod => exact absurd rfl hf
    | _ => rfl
  rw [fault?, visited, List.findSome?_cons, hself, Option.map_none]
  split_ifs <;> exact List.findSome?_append

theorem fault?_nary {f : Nary} {as : List (Expr α)} (hf : f = .sum ∨ f = .product) :
    (nary f as).fault? = faultList? as := by
  rcases hf with rfl | rfl <;> rfl

theorem faultList?_cons {a : Expr α} {as : List (Expr α)} :
    faultList? (a :: as) = a.fault?.or (faultList? as) := by
  rw [faultList?, visitedList, List.findSome?_append]
  rfl

theorem fault?_eq_none_iff {e : Expr α} :
    e.fault? = none ↔ ∀ t, Exposed t e → t.undifferentiable? = none := by
  simp only [fault?, List.findSome?_eq_none_iff, mem_visited_iff, Option.map_eq_none_iff]

theorem undifferentiable?_ne_none_iff {e : Expr α} : e.undifferentiable? ≠ none ↔
    e.head ∈ [Head.unary .sign, .binary .mod, .nary .min, .nary .max] := by
  cases e with
  | const x => simp [undifferentiable?, head]
  | var c => simp [undifferentiable?, head]
  | unary f a => cases f <;> simp [undifferentiable?, head]
  | binary f a b => cases f <;> simp [undifferentiable?, head]
  | nary f as => cases f <;> simp [undifferentiable?, head]

theorem fault?_eq_some_iff {e : Expr α} {c : Cause} : e.fault? = some c ↔
    ∃ before t after name, e.visited = before ++ t :: after ∧
      (∀ u ∈ before, u.undifferentiable? = none) ∧ t.undifferentiable? = some name ∧
      c = .undifferentiable name := by
  rw [fault?, List.findSome?_eq_some_iff]
  simp only [Option.map_eq_some_iff, Option.map_eq_none_iff]
  constructor
  · rintro ⟨before, t, after, hvisits, ⟨name, ht, hc⟩, hbefore⟩
    exact ⟨before, t, after, name, hvisits, hbefore, ht, hc.symm⟩
  · rintro ⟨before, t, after, name, hvisits, hbefore, ht, rfl⟩
    exact ⟨before, t, after, hvisits, ⟨name, ht, rfl⟩, hbefore⟩

end Expr

/-! ### What the rules come to -/

/-- The fault of a failure. -/
def faultOf {ε β : Type} : Except ε β → Option ε
  | .error fault => some fault
  | .ok _ => none

theorem faultOf_eq_some_iff {ε β : Type} {x : Except ε β} {c : ε} :
    faultOf x = some c ↔ x = .error c := by
  cases x <;> simp [faultOf]

theorem faultOf_eq_none_iff {ε β : Type} {x : Except ε β} :
    faultOf x = none ↔ ∃ b, x = .ok b := by
  cases x <;> simp [faultOf]

/-- One attempt after another fails as the first of them does. -/
theorem faultOf_bind {ε β γ : Type} {x : Except ε β} {f : β → Except ε γ} {next : Option ε}
    (hf : ∀ b, faultOf (f b) = next) : faultOf (x >>= f) = (faultOf x).or next := by
  cases x with
  | error fault => rfl
  | ok b => exact hf b

theorem faultOf_map {ε β γ : Type} {x : Except ε β} {f : β → γ} :
    faultOf (x >>= fun b => .ok (f b)) = faultOf x := by
  cases x <;> rfl

theorem faultOf_map₂ {ε β γ δ : Type} {x : Except ε β} {y : Except ε γ} {f : β → γ → δ} :
    faultOf (x >>= fun b => y >>= fun c => .ok (f b c)) = (faultOf x).or (faultOf y) :=
  faultOf_bind fun _ => faultOf_map

namespace Expr

/-! ### Constants -/

theorem constant?_eq_none_iff {e : Expr α} : e.constant? = none ↔ e.isConst = false := by
  rw [isConst, Option.isSome_eq_false_iff, Option.isNone_iff_eq_none]

theorem isConst_of_constant? {e : Expr α} {k : α} (h : e.constant? = some k) :
    e.isConst = true := by
  rw [isConst, h, Option.isSome_some]

theorem isConst_of_isEuler [Scalar α] {e : Expr α} (h : e.isEuler = true) : e.isConst = true := by
  cases e with
  | const x => rfl
  | _ => cases h

/-! ### Nodes -/

variable [Scalar α] {v : Char}

section Nodes

variable {a b : Expr α} (iha : faultOf (a.derivative v) = a.fault?)
  (ihb : faultOf (b.derivative v) = b.fault?)

include iha in
theorem fault_unary (f : Unary) : faultOf ((unary f a).derivative v) = (unary f a).fault? := by
  match f with
  | .bracket .floor => rfl
  | .bracket .ceil => rfl
  | .bracket .abs =>
    rw [derivative, faultOf_map, iha, fault?_unary (by decide)]
    rfl
  | .trig kind =>
    rw [derivative, faultOf_map, iha, fault?_unary Unary.noConfusion]
    rfl
  | .sign => rfl

include iha ihb

theorem fault_power : faultOf ((power a b).derivative v) = (power a b).fault? := by
  rw [fault?_binary (by decide), derivative, visitsRightFirst]
  rcases ha : a.constant? with _ | k <;> rcases hb : b.constant? with _ | l
  · rw [faultOf_map₂, iha, ihb, constant?_eq_none_iff.mp ha, constant?_eq_none_iff.mp hb]
    rfl
  · have hconst := isConst_of_constant? hb
    rw [faultOf_map, iha, hconst, fault?_of_isConst hconst, Bool.not_true, Bool.and_false,
      if_neg Bool.false_ne_true, Option.or_none]
  · have hconst := isConst_of_constant? ha
    rw [faultOf_map, ihb, hconst, fault?_of_isConst hconst]
    rfl
  · have hconst := isConst_of_constant? ha
    rw [hconst, fault?_of_isConst hconst, fault?_of_isConst (isConst_of_constant? hb)]
    rfl

theorem fault_log : faultOf ((log a b).derivative v) = (log a b).fault? := by
  rw [fault?_binary (by decide), derivative, visitsRightFirst]
  rcases ha : a.isConst
  · have heuler : a.isEuler = false := by
      rw [Bool.eq_false_iff]
      exact fun h => Bool.false_ne_true (ha.symm.trans (isConst_of_isEuler h))
    rw [heuler, Bool.false_and, if_neg Bool.false_ne_true, if_neg Bool.false_ne_true,
      if_neg Bool.false_ne_true, faultOf_map₂, iha, ihb, Bool.not_false, if_pos rfl]
  · rw [fault?_of_isConst ha, Bool.true_and, Bool.not_true, if_neg Bool.false_ne_true,
      Option.none_or, if_pos rfl]
    split_ifs with hb
    · exact (fault?_of_isConst hb).symm
    · rw [faultOf_map, ihb]
    · rw [faultOf_map, ihb]

theorem fault_binary (f : Binary) :
    faultOf ((binary f a b).derivative v) = (binary f a b).fault? := by
  match f with
  | .fraction =>
    rw [fault?_binary (by decide), derivative, faultOf_map₂, iha, ihb]
    rfl
  | .power => exact fault_power iha ihb
  | .log => exact fault_log iha ihb
  | .mod => rfl

end Nodes

mutual

/-- **Differentiation fails at the first node without a derivative.** -/
theorem fault_derivative : ∀ e : Expr α, faultOf (e.derivative v) = e.fault?
  | const _ => rfl
  | var _ => rfl
  | unary f a => fault_unary (fault_derivative a) f
  | binary f a b => fault_binary (fault_derivative a) (fault_derivative b) f
  | nary .sum as => by
    rw [derivative, faultOf_map, fault_derivativeList as, fault?_nary (.inl rfl)]
  | nary .product as => by
    rw [derivative, faultOf_map, fault_derivativeList as, fault?_nary (.inr rfl)]
  | nary .min _ => rfl
  | nary .max _ => rfl

theorem fault_derivativeList : ∀ es : List (Expr α),
    faultOf (derivativeList v es) = faultList? es
  | [] => rfl
  | a :: as => by
    rw [derivativeList, faultOf_map₂, fault_derivative a, fault_derivativeList as, faultList?_cons]

end

/-! ### Subtasks -/

/-- `Asks t e`: the rule of `e` asks for the derivative of `t`. A logarithm to a base that is no
constant asks for that of a quotient of natural logarithms, which is a larger expression. -/
inductive Asks : Expr α → Expr α → Prop where
  | term {t : Expr α} {ts : List (Expr α)} (ht : t ∈ ts) : Asks t (sum ts)
  | factor {f : Expr α} {fs : List (Expr α)} (hf : f ∈ fs) : Asks f (product fs)
  | num (a b : Expr α) : Asks a (fraction a b)
  | den (a b : Expr α) : Asks b (fraction a b)
  | base (a b : Expr α) : Asks a (power a b)
  | exponent (a b : Expr α) : Asks b (power a b)
  | arg {a b : Expr α} (ha : a.isConst = true) : Asks b (log a b)
  | quotient {a b : Expr α} (ha : a.isConst = false) : Asks (fraction b.ln a.ln) (log a b)
  | abs (a : Expr α) : Asks a (bracket .abs a)
  | trig (kind : Trig) (a : Expr α) : Asks a (trig kind a)

mutual

/-- A size by which a logarithm to a base that is no constant outweighs the quotient. -/
def weight : Expr α → Nat
  | const _ => 1
  | var _ => 1
  | unary _ a => a.weight + 1
  | binary .log a b => a.weight + b.weight + if a.isConst then 1 else 6
  | binary _ a b => a.weight + b.weight + 1
  | nary _ as => weightList as + 1

def weightList : List (Expr α) → Nat
  | [] => 0
  | a :: as => a.weight + weightList as

end

omit [Scalar α] in
theorem weight_le_weightList {a : Expr α} : ∀ {as : List (Expr α)}, a ∈ as →
    a.weight ≤ weightList as
  | b :: bs, h => by
    rw [weightList]
    rcases List.mem_cons.mp h with rfl | h
    · exact Nat.le_add_right _ _
    · exact (weight_le_weightList h).trans (Nat.le_add_left _ _)

theorem Asks.weight_lt {t e : Expr α} (h : Asks t e) : t.weight < e.weight := by
  cases h with
  | term ht | factor ht =>
    have hle := weight_le_weightList ht
    rw [weight]
    omega
  | num a b | den a b | base a b | exponent a b | abs a | trig kind a =>
    simp only [weight]
    omega
  | arg ha =>
    rw [weight, if_pos ha]
    omega
  | quotient ha =>
    have hconst : (const Scalar.euler : Expr α).isConst = true := rfl
    simp only [ln, weight, if_pos hconst, ha, Bool.false_eq_true, if_false]
    omega

/-- **The subtasks of differentiation come to an end.** -/
theorem asks_wellFounded : WellFounded (Asks (α := α)) :=
  Subrelation.wf Asks.weight_lt (measure weight).wf

theorem derivative_ln (heuler : (const Scalar.euler : Expr α).isEuler = true) (a : Expr α) :
    a.ln.derivative v = if a.isConst then .ok (const Scalar.zero) else
      a.derivative v >>= fun da => .ok (Derivative.ofLn a da) := by
  rw [ln, derivative, heuler]
  rfl

/-- **Change of base**: a logarithm to a base that is no constant has the derivative of the quotient
of the natural logarithms. -/
theorem derivative_log (heuler : (const Scalar.euler : Expr α).isEuler = true) {a b : Expr α}
    (ha : a.isConst = false) :
    (log a b).derivative v = (fraction b.ln a.ln).derivative v := by
  have hnot : a.isEuler = false := by
    rw [Bool.eq_false_iff]
    exact fun h => Bool.false_ne_true (ha.symm.trans (isConst_of_isEuler h))
  have hlog : (log a b).derivative v = b.derivative v >>= fun db => a.derivative v >>= fun da =>
      .ok (Derivative.ofLog a da b db) := by
    rw [derivative, ha, hnot]
    rfl
  rw [hlog, derivative, derivative_ln heuler, derivative_ln heuler, ha]
  rcases hb : b.isConst
  · cases b.derivative v <;> cases a.derivative v <;>
      simp [Derivative.ofLog, Derivative.ofAnyLn, hb, bind, Except.bind]
  · cases b with
    | const y =>
      cases a.derivative v <;>
        simp [derivative, Derivative.ofLog, Derivative.ofAnyLn, hb, bind, Except.bind]
    | _ => cases hb

end Expr

/-! ### Closure -/

open SymbolicAlgebra.Expr (Exposed undifferentiable?)

/-- No node without a derivative is exposed. -/
def Expr.Differentiable (e : Expr α) : Prop := ∀ t, Exposed t e → t.undifferentiable? = none

namespace Expr.Differentiable

theorem of_isStep {f : Unary} (hf : f.isStep = true) (a : Expr α) :
    (Expr.unary f a).Differentiable := by
  intro t ht
  rcases Exposed.unary_iff.mp ht with rfl | ⟨hstep, -⟩
  · match f, hf with
    | .bracket .floor, _ => rfl
    | .bracket .ceil, _ => rfl
  · cases hf.symm.trans hstep

theorem unary_iff {f : Unary} {a : Expr α} (hf : f.isStep = false) :
    (Expr.unary f a).Differentiable ↔ f ≠ .sign ∧ a.Differentiable := by
  simp only [Differentiable, Exposed.unary_iff, hf, true_and, forall_eq_or_imp]
  refine and_congr_left fun _ => ?_
  rcases f with ⟨_ | _ | _⟩ | _ | _ <;> simp [undifferentiable?]

theorem binary_iff {f : Binary} {a b : Expr α} : (Expr.binary f a b).Differentiable ↔
    f ≠ .mod ∧ a.Differentiable ∧ b.Differentiable := by
  simp only [Differentiable, Exposed.binary_iff, or_imp, forall_and]
  refine and_congr_left fun _ => ?_
  cases f <;> simp [undifferentiable?]

theorem nary_iff {f : Nary} {as : List (Expr α)} : (Expr.nary f as).Differentiable ↔
    (f = .sum ∨ f = .product) ∧ ∀ a ∈ as, a.Differentiable := by
  have hargs : (∀ t, (∃ a ∈ as, Exposed t a) → t.undifferentiable? = none) ↔
      ∀ a ∈ as, a.Differentiable :=
    ⟨fun h a ha t ht => h t ⟨a, ha, ht⟩, fun h t ⟨a, ha, ht⟩ => h a ha t ht⟩
  simp only [Differentiable, Exposed.nary_iff, or_imp, forall_and]
  refine and_congr ?_ hargs
  cases f <;> simp [undifferentiable?]

end Expr.Differentiable

open SymbolicAlgebra.Expr (Differentiable)

/-- **Having no node without a derivative lasts.** -/
theorem lasting_differentiable [Scalar α] : Lasting (Differentiable (α := α)) where
  const x t ht := by
    rw [Exposed.const_iff.mp ht]
    rfl
  abs_iff := by simp [Differentiable.unary_iff (f := .bracket .abs) rfl]
  trig_iff := by
    intro kind a
    simp [Differentiable.unary_iff (f := .trig kind) rfl]
  unary {f a b} h hab := by
    rcases hf : f.isStep
    · obtain ⟨hsign, ha⟩ := (Differentiable.unary_iff hf).mp h
      exact (Differentiable.unary_iff hf).mpr ⟨hsign, hab ha⟩
    · exact .of_isStep hf b
  binary_iff hf := Differentiable.binary_iff.trans (and_iff_right hf)
  mod h _ _ := absurd rfl (Differentiable.binary_iff.mp h).1
  args h := (Differentiable.nary_iff.mp h).2
  sum {ts} _ hts := Differentiable.nary_iff.mpr ⟨.inl rfl, fun t ht =>
    hts t ((Expr.arrange_perm .sum ts).mem_iff.mp ht)⟩
  product _ _ hfs := Differentiable.nary_iff.mpr ⟨.inr rfl, hfs⟩
  rearranged {f as bs} h _ hbs := Differentiable.nary_iff.mpr
    ⟨(Differentiable.nary_iff.mp h).1, fun b hb =>
      hbs b ((Expr.arrange_perm f bs).mem_iff.mp hb)⟩

theorem Expr.differentiable_iff [Scalar α] {e : Expr α} {v : Char} :
    e.Differentiable ↔ ∃ d, e.derivative v = .ok d := by
  rw [← faultOf_eq_none_iff, Expr.fault_derivative, Expr.fault?_eq_none_iff,
    Expr.Differentiable]

/-- **Differentiation fails exactly at functions without a derivative, and once it succeeds, it
always does.** The rules come to an end, also where a logarithm to a base that is no constant is
taken as a quotient of natural logarithms; that the sums and products they build come to an end as
well is not part of this. Differentiation fails if and only if a sign, remainder, minimum or maximum
is exposed, with the first of them in the order of the rules as the fault. If it succeeds, the
derivative has derivatives itself, by any variable, and so has what a step of simplification, or a
solver of any depth, makes of the expression or of its derivative. -/
theorem differentiation_fails_exactly [Scalar α] [OrderedScalar α]
    (heuler : (Expr.const Scalar.euler : Expr α).isEuler = true) (e : Expr α) (v : Char) :
    Acc Expr.Asks e ∧
    (∀ a b, e = .log a b → a.isConst = false →
      e.derivative v = (Expr.fraction b.ln a.ln).derivative v) ∧
    ((∃ c, e.derivative v = .error c) ↔
      ∃ t, Exposed t e ∧ t.head ∈ [.unary .sign, .binary .mod, .nary .min, .nary .max]) ∧
    (∀ c, e.derivative v = .error c → ∃ before t after name, e.visited = before ++ t :: after ∧
      (∀ u ∈ before, u.undifferentiable? = none) ∧ t.undifferentiable? = some name ∧
      c = .undifferentiable name) ∧
    ∀ d, e.derivative v = .ok d → ∀ w,
      (∃ r, d.derivative w = .ok r) ∧ (∃ r, d.simplifyStep.derivative w = .ok r) ∧
      (∃ r, e.simplifyStep.derivative w = .ok r) ∧
      ∀ f, f = d ∨ f = e → ∀ depth g, Simplify.solve depth (.step f) = some g →
        ∃ r, g.derivative w = .ok r := by
  refine ⟨Expr.asks_wellFounded.apply e, ?_, ?_, fun c hc => ?_, fun d hd w => ?_⟩
  · rintro a b rfl ha
    exact Expr.derivative_log heuler ha
  · calc
      (∃ c, e.derivative v = .error c) ↔ ¬e.Differentiable := by
        rw [Expr.differentiable_iff (v := v)]
        rcases e.derivative v <;> simp
      _ ↔ _ := by simp only [Expr.Differentiable, not_forall, ← ne_eq,
          Expr.undifferentiable?_ne_none_iff, exists_prop]
  · rw [← faultOf_eq_some_iff, Expr.fault_derivative] at hc
    exact Expr.fault?_eq_some_iff.mp hc
  · have he : e.Differentiable := Expr.differentiable_iff.mpr ⟨d, hd⟩
    have hderiv : d.Differentiable := lasting_differentiable.derivative he hd
    refine ⟨Expr.differentiable_iff.mp hderiv,
      Expr.differentiable_iff.mp (lasting_differentiable.simplifyStep hderiv),
      Expr.differentiable_iff.mp (lasting_differentiable.simplifyStep he), ?_⟩
    rintro f hf depth g hg
    have hkept : (Task.step f).Kept Differentiable := by
      rcases hf with rfl | rfl
      · exact hderiv
      · exact he
    exact Expr.differentiable_iff.mp (Simplify.solve_kept lasting_differentiable hkept hg)

-- the exponent is visited first
example : (Expr.power (.min [.var 'x', .const 2]) (.mod (.var 'x') (.const 2)) :
    Expr Float).derivative 'x' = .error (.undifferentiable "mod") := rfl

end SymbolicAlgebra
