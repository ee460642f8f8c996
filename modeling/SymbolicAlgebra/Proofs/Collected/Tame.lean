import SymbolicAlgebra.Proofs.Collected.Bulk
import SymbolicAlgebra.Proofs.Collected.Depth
import SymbolicAlgebra.Proofs.Congruence.Simplify
import SymbolicAlgebra.Proofs.Expr.Occurs
import SymbolicAlgebra.Proofs.Form.Constants

/-! # Tame expressions

A fixed expression is one whose subexpressions no step changes. While the simplifier works on a
fixed expression it builds sums, products, fractions and powers that are not fixed, but it leaves
the atoms as they are, and it raises no product and no fraction to an exponent that is not constant.
Expressions built that way are *tame*. A solver is *bounded* (`Bounded`) if it takes tame
expressions to tame ones and increases neither their bulk nor the size of their atoms. -/

theorem List.Forall₂.exists_left {β γ : Type} {R : β → γ → Prop} {xs : List β} {ys : List γ}
    (h : List.Forall₂ R xs ys) : ∀ y ∈ ys, ∃ x ∈ xs, R x y := by
  induction h with
  | nil => simp
  | cons hxy _ ih =>
    refine List.forall_mem_cons.mpr ⟨⟨_, List.mem_cons_self, hxy⟩, fun y hy => ?_⟩
    obtain ⟨x, hx, hxy⟩ := ih y hy
    exact ⟨x, List.mem_cons_of_mem _ hx, hxy⟩

theorem List.Forall₂.exists_right {β γ : Type} {R : β → γ → Prop} {xs : List β} {ys : List γ}
    (h : List.Forall₂ R xs ys) : ∀ x ∈ xs, ∃ y ∈ ys, R x y :=
  h.flip.exists_left

namespace SymbolicAlgebra

variable {α : Type}

namespace Expr

/-! ### Kinds of bases -/

/-- Whether a power of the expression to a constant exponent goes to its parts. -/
def isCompound : Expr α → Bool
  | fraction _ _ => true
  | product _ => true
  | _ => false

/-- Whether a power of the expression stays a power of it. -/
def isBase : Expr α → Bool
  | fraction _ _ => false
  | product _ => false
  | power _ _ => false
  | _ => true

theorem isCompound_of_isBase {e : Expr α} (h : e.isBase = true) : e.isCompound = false := by
  unfold isBase at h
  unfold isCompound
  split at h <;> simp_all

variable [Scalar α]

theorem Same.isCompound_eq {a b : Expr α} (h : Same a b) : a.isCompound = b.isCompound := by
  cases h.node with
  | binary f _ _ => cases f <;> rfl
  | nary f _ => cases f <;> rfl
  | _ => rfl

theorem Same.isBase_eq {a b : Expr α} (h : Same a b) : a.isBase = b.isBase := by
  cases h.node with
  | binary f _ _ => cases f <;> rfl
  | nary f _ => cases f <;> rfl
  | _ => rfl

theorem Same.children {a b : Expr α} (h : Same a b) :
    List.Forall₂ Same a.children b.children := by
  cases h.node with
  | const _ => exact .nil
  | var _ => exact .nil
  | unary _ ha => exact .cons ha .nil
  | binary _ ha hb => exact .cons ha (.cons hb .nil)
  | nary _ has => exact has

/-! ### Fixed expressions -/

/-- No step changes any subexpression. -/
def Fixed (e : Expr α) : Prop := ∀ t, Occurs t e → Same t.simplifyStep t

namespace Fixed

theorem child {a e : Expr α} (h : Fixed e) (ha : a ∈ e.children) : Fixed a := fun t ht =>
  h t (.inside ha ht)

theorem of_children {e : Expr α} (h : (e.simplifyStep == e) = true)
    (hchildren : ∀ a ∈ e.children, Fixed a) : Fixed e := by
  intro t ht
  cases ht with
  | self => exact h
  | inside ha ht => exact hchildren _ ha t ht

theorem of_occurs {t e : Expr α} (h : Fixed e) (ht : Occurs t e) : Fixed t := by
  induction ht with
  | self => exact h
  | inside ha _ ih => exact ih (h.child ha)

/-- A step that a solver takes does not change a fixed expression. -/
theorem step {e r : Expr α} (he : Fixed e) {depth : Nat}
    (h : Simplify.solve depth (.step e) = some r) : Same r e := by
  obtain ⟨r', hr', hsame⟩ := solved_of_fixed (he e (.self e))
  rwa [Simplify.solve_unique h hr']

/-- A step at a fixed expression is really taken. -/
theorem solved {e : Expr α} (he : Fixed e) :
    ∃ depth r, Simplify.solve (depth + 1) (.step e) = some r ∧ Same r e := by
  obtain ⟨r, hr, hsame⟩ := solved_of_fixed (he e (.self e))
  obtain ⟨depth, hdepth⟩ := Simplify.fuelFor_eq_succ (.step e)
  rw [hdepth] at hr
  exact ⟨depth, r, hr, hsame⟩

variable [CongruentScalar α]

theorem same {a b : Expr α} (ha : Fixed a) (h : Same a b) : Fixed b := by
  intro t ht
  induction ht generalizing a with
  | self => exact (h.symm.simplifyStep.trans (ha a (.self a))).trans h
  | @inside c b hc ht ih =>
    obtain ⟨c', hc', hsame⟩ := h.children.exists_left c hc
    exact ih (ha.child hc') hsame

theorem const (x : α) : Fixed (.const x : Expr α) := by
  intro t ht
  rw [Occurs.const_iff] at ht
  obtain ⟨depth, hdepth⟩ := Simplify.fuelFor_eq_succ (.step (.const x))
  rw [ht, simplifyStep, Simplify.run, hdepth]
  exact .refl _

end Fixed

/-! ### Tame expressions -/

/-- Expressions built from fixed atoms of size less than `n` in the ways of the simplifier. -/
inductive Tame (n : Nat) : Expr α → Prop
  | const (x : α) : Tame n (.const x)
  | var (c : Char) : Tame n (.var c)
  | atom {e : Expr α} (hatom : e.isAtom = true) (hfixed : e.Fixed) (hsize : e.size < n) : Tame n e
  | sum {ts : List (Expr α)} (h : ∀ t ∈ ts, Tame n t) : Tame n (.sum ts)
  | product {fs : List (Expr α)} (h : ∀ f ∈ fs, Tame n f) : Tame n (.product fs)
  | fraction {a b : Expr α} (ha : Tame n a) (hb : Tame n b) : Tame n (.fraction a b)
  | powerConst {b : Expr α} (hb : Tame n b) (x : α) : Tame n (.power b (.const x))
  | power {b e : Expr α} (hb : b.Fixed) (hsize : b.size < n) (hbase : b.isCompound = false)
    (he : Tame n e) : Tame n (.power b e)

namespace Tame

variable {n : Nat}

theorem mono {m : Nat} (hle : n ≤ m) {e : Expr α} (h : Tame n e) : Tame m e := by
  induction h with
  | const x => exact .const x
  | var c => exact .var c
  | atom hatom hfixed hsize => exact .atom hatom hfixed (by omega)
  | sum _ ih => exact .sum ih
  | product _ ih => exact .product ih
  | fraction _ _ iha ihb => exact .fraction iha ihb
  | powerConst _ x ih => exact .powerConst ih x
  | power hb hsize hbase _ ih => exact .power hb (by omega) hbase ih

theorem of_sum {ts : List (Expr α)} (h : Tame n (.sum ts)) : ∀ t ∈ ts, Tame n t := by
  cases h with
  | atom hatom => cases hatom
  | sum h => exact h

theorem of_product {fs : List (Expr α)} (h : Tame n (.product fs)) : ∀ f ∈ fs, Tame n f := by
  cases h with
  | atom hatom => cases hatom
  | product h => exact h

theorem of_fraction {a b : Expr α} (h : Tame n (.fraction a b)) : Tame n a ∧ Tame n b := by
  cases h with
  | atom hatom => cases hatom
  | fraction ha hb => exact ⟨ha, hb⟩

theorem of_isAtom {e : Expr α} (h : Tame n e) (he : e.isAtom = true) :
    e.Fixed ∧ e.size < n := by
  cases h with
  | atom _ hfixed hsize => exact ⟨hfixed, hsize⟩
  | _ => cases he

/-- A power to a constant exponent, or of a fixed base that is not compound. -/
theorem of_power {b e : Expr α} (h : Tame n (.power b e)) :
    (Tame n b ∧ ∃ x, e = .const x) ∨
      (b.Fixed ∧ b.size < n ∧ b.isCompound = false ∧ Tame n e) := by
  cases h with
  | atom hatom => cases hatom
  | powerConst hb x => exact .inl ⟨hb, x, rfl⟩
  | power hb hsize hbase he => exact .inr ⟨hb, hsize, hbase, he⟩

theorem exponent {b e : Expr α} (h : Tame n (.power b e)) : Tame n e := by
  rcases h.of_power with ⟨-, x, rfl⟩ | ⟨-, -, -, he⟩
  · exact .const x
  · exact he

/-- A power with another exponent, which is constant if the exponent was. -/
theorem with_exponent {b e e' : Expr α} (h : Tame n (.power b e)) (he' : Tame n e')
    (hconst : e.isConst = true → e'.isConst = true) : Tame n (.power b e') := by
  rcases h.of_power with ⟨hb, x, rfl⟩ | ⟨hb, hsize, hbase, -⟩
  · obtain ⟨y, rfl⟩ := isConst_iff_exists.mp (hconst rfl)
    exact .powerConst hb y
  · exact .power hb hsize hbase he'

theorem same [CongruentScalar α] {a b : Expr α} (ha : Tame n a) (h : Same a b) : Tame n b := by
  induction ha generalizing b with
  | const x =>
    cases h.node with | const _ => exact .const _
  | var c =>
    cases h.node
    exact .var c
  | atom hatom hfixed hsize =>
    exact .atom (h.isAtom_eq ▸ hatom) (hfixed.same h) (h.size_eq ▸ hsize)
  | sum _ ih =>
    cases h.node with
    | nary _ hts =>
      refine .sum fun t ht => ?_
      obtain ⟨u, hu, hsame⟩ := hts.exists_left t ht
      exact ih u hu hsame
  | product _ ih =>
    cases h.node with
    | nary _ hfs =>
      refine .product fun f hf => ?_
      obtain ⟨g, hg, hsame⟩ := hfs.exists_left f hf
      exact ih g hg hsame
  | fraction _ _ iha ihb =>
    cases h.node with | binary _ ha hb => exact .fraction (iha ha) (ihb hb)
  | powerConst _ x ih =>
    cases h.node with
    | binary _ hb hx => cases hx.node with | const _ => exact .powerConst (ih hb) _
  | power hb hsize hbase _ ih =>
    cases h.node with
    | binary _ hb' he' =>
      exact .power (hb.same hb') (hb'.size_eq ▸ hsize) (hb'.isCompound_eq ▸ hbase) (ih he')

end Tame

/-- What is to be known of the fixed expressions of size less than `n`: they are tame, powers among
them are powers of bases that stay, and products have no compound factors. -/
structure TameBelow (α : Type) [Scalar α] (n : Nat) : Prop where
  tame {e : Expr α} : e.Fixed → e.size < n → Tame n e
  base {b x : Expr α} : (power b x).Fixed → (power b x).size < n → b.isBase = true
  factor {fs : List (Expr α)} : (product fs).Fixed → (product fs).size < n →
    ∀ f ∈ fs, f.isCompound = false

/-- A tame expression whose atoms have at most the size `a`. -/
structure Within (n a : Nat) (e : Expr α) : Prop where
  tame : Tame n e
  atomSize_le : e.atomSize ≤ a

namespace Within

variable {n a : Nat}

theorem const (x : α) : Within n a (.const x : Expr α) := ⟨.const x, Nat.zero_le _⟩

theorem self {e : Expr α} (h : Tame n e) : Within n e.atomSize e := ⟨h, Nat.le_refl _⟩

theorem mono {a' : Nat} (hle : a ≤ a') {e : Expr α} (h : Within n a e) : Within n a' e :=
  ⟨h.tame, h.atomSize_le.trans hle⟩

theorem same [CongruentScalar α] {e e' : Expr α} (h : Within n a e) (hsame : Same e e') :
    Within n a e' :=
  ⟨h.tame.same hsame, hsame.atomSize_eq ▸ h.atomSize_le⟩

theorem sum_iff {ts : List (Expr α)} : Within n a (.sum ts) ↔ ∀ t ∈ ts, Within n a t := by
  constructor
  · exact fun h t ht => ⟨h.tame.of_sum t ht, atomSizeList_le.mp h.atomSize_le t ht⟩
  · exact fun h => ⟨.sum fun t ht => (h t ht).tame,
      atomSizeList_le.mpr fun t ht => (h t ht).atomSize_le⟩

theorem product_iff {fs : List (Expr α)} : Within n a (.product fs) ↔ ∀ f ∈ fs, Within n a f := by
  constructor
  · exact fun h f hf => ⟨h.tame.of_product f hf, atomSizeList_le.mp h.atomSize_le f hf⟩
  · exact fun h => ⟨.product fun f hf => (h f hf).tame,
      atomSizeList_le.mpr fun f hf => (h f hf).atomSize_le⟩

theorem fraction_iff {c d : Expr α} :
    Within n a (.fraction c d) ↔ Within n a c ∧ Within n a d := by
  constructor
  · intro h
    obtain ⟨hc, hd⟩ := h.tame.of_fraction
    obtain ⟨hc', hd'⟩ := Nat.max_le.mp h.atomSize_le
    exact ⟨⟨hc, hc'⟩, hd, hd'⟩
  · exact fun ⟨hc, hd⟩ => ⟨.fraction hc.tame hd.tame, Nat.max_le.mpr ⟨hc.2, hd.2⟩⟩

theorem powerConst {b : Expr α} (hb : Within n a b) (x : α) : Within n a (.power b (.const x)) :=
  ⟨.powerConst hb.tame x, Nat.max_le.mpr ⟨hb.2, Nat.zero_le _⟩⟩

theorem exponent {b e : Expr α} (h : Within n a (.power b e)) : Within n a e :=
  ⟨h.tame.exponent, (Nat.max_le.mp h.atomSize_le).2⟩

theorem base (hn : TameBelow α n) {b e : Expr α} (h : Within n a (.power b e)) :
    Within n a b := by
  refine ⟨?_, (Nat.max_le.mp h.atomSize_le).1⟩
  rcases h.tame.of_power with ⟨hb, -⟩ | ⟨hb, hsize, -⟩
  · exact hb
  · exact hn.tame hb hsize

theorem with_exponent {b e e' : Expr α} (h : Within n a (.power b e)) (he' : Within n a e')
    (hconst : e.isConst = true → e'.isConst = true) : Within n a (.power b e') :=
  ⟨h.tame.with_exponent he'.tame hconst,
    Nat.max_le.mpr ⟨(Nat.max_le.mp h.atomSize_le).1, he'.atomSize_le⟩⟩

end Within

end Expr

open SymbolicAlgebra.Expr (Same Tame TameBelow Within)

/-! ### Bounded solvers -/

/-- Steps at a list are steps at its members. -/
theorem Solver.steps_forall₂ {solve : Solver α} {es rs : List (Expr α)}
    (h : solve.steps es = some rs) : List.Forall₂ (fun e r => solve (.step e) = some r) es rs := by
  induction es generalizing rs with
  | nil =>
    rw [Solver.steps, Option.some.injEq] at h
    rw [← h]
    exact .nil
  | cons e es ih =>
    simp only [Solver.steps, Option.bind_eq_bind, Option.bind_eq_some_iff, Option.some.injEq] at h
    obtain ⟨r, hr, rs', hrs, rfl⟩ := h
    exact .cons hr (ih hrs)

variable [Scalar α]

/-- **A solver that keeps tame expressions tame** and increases neither their bulk nor the size of
their atoms. -/
structure Bounded (n : Nat) (solve : Solver α) : Prop where
  constants : KeepsConstants solve
  fixed {e r : Expr α} : e.Fixed → solve (.step e) = some r → Same r e
  step {a : Nat} {e r : Expr α} : Within n a e → solve (.step e) = some r →
    Within n a r ∧ r.bulk ≤ e.bulk
  sum {a : Nat} {ts : List (Expr α)} {r : Expr α} : (∀ t ∈ ts, Within n a t) →
    solve (.sum ts) = some r → Within n a r ∧ r.bulk ≤ (ts.map Expr.bulk).sum + 2
  product {a : Nat} {fs : List (Expr α)} {r : Expr α} : (∀ f ∈ fs, Within n a f) →
    solve (.product fs) = some r → Within n a r ∧ r.bulk ≤ (fs.map Expr.bulk).prod

/-- An expression is replaced by a tame one with no larger atoms that is no bulkier. -/
def Shrinks (n a : Nat) (e r : Expr α) : Prop := Within n a r ∧ r.bulk ≤ e.bulk

namespace Shrinks

variable {n a : Nat} {es rs : List (Expr α)} (h : List.Forall₂ (Shrinks n a) es rs)
include h

theorem within : ∀ r ∈ rs, Within n a r := by
  intro r hr
  obtain ⟨-, -, hwithin, -⟩ := List.Forall₂.exists_left h r hr
  exact hwithin

theorem sum_le : (rs.map Expr.bulk).sum ≤ (es.map Expr.bulk).sum := by
  induction h with
  | nil => exact Nat.le_refl _
  | cons h _ ih => exact Nat.add_le_add h.2 ih

theorem prod_le : (rs.map Expr.bulk).prod ≤ (es.map Expr.bulk).prod := by
  induction h with
  | nil => exact Nat.le_refl _
  | cons h _ ih => exact Nat.mul_le_mul h.2 ih

end Shrinks

namespace Bounded

variable {n a : Nat} {solve : Solver α} (hs : Bounded n solve)
include hs

theorem product_pair {x y r : Expr α} (hx : Within n a x) (hy : Within n a y)
    (h : solve (.product [x, y]) = some r) : Within n a r ∧ r.bulk ≤ x.bulk * y.bulk := by
  have hpair := hs.product (List.forall_mem_cons.mpr ⟨hx, List.forall_mem_singleton.mpr hy⟩) h
  rwa [List.map_cons, List.map_singleton, List.prod_cons, List.prod_singleton] at hpair

/-- **Steps shrink expressions one by one.** -/
theorem steps {es rs : List (Expr α)} (hes : ∀ e ∈ es, Within n a e)
    (h : solve.steps es = some rs) : List.Forall₂ (Shrinks n a) es rs :=
  ((List.forall₂_and_left es rs).mpr ⟨hes, Solver.steps_forall₂ h⟩).imp
    fun _ _ h => hs.step h.1 h.2

/-- An exponent multiplied by another one. -/
theorem product_degree {x y r : Expr α} (hx : Within n a x) (hy : Within n a y)
    (h : solve (.product [x, y]) = some r) :
    Within n a r ∧ (x.isConst = true → y.isConst = true → r.isConst = true) ∧
      r.degree ≤ x.degree + y.degree := by
  have hconst (hx : x.isConst = true) (hy : y.isConst = true) : r.isConst = true :=
    hs.constants.product (List.forall_mem_cons.mpr ⟨hx, List.forall_mem_singleton.mpr hy⟩) h
  have hmax : r.atomSize ≤ Nat.max x.atomSize y.atomSize :=
    (hs.product_pair ((Within.self hx.tame).mono (Nat.le_max_left _ _))
      ((Within.self hy.tame).mono (Nat.le_max_right _ _)) h).1.atomSize_le
  have hzero {e : Expr α} (he : e.isConst = true) : e.atomSize = 0 := by
    obtain ⟨c, rfl⟩ := Expr.isConst_iff_exists.mp he
    rfl
  refine ⟨(hs.product_pair hx hy h).1, hconst, ?_⟩
  rw [Expr.degree, Expr.degree, Expr.degree]
  have hmax' : r.atomSize ≤ x.atomSize ∨ r.atomSize ≤ y.atomSize := le_max_iff.mp hmax
  by_cases hcx : x.isConst = true
  · have := hzero hcx
    by_cases hcy : y.isConst = true
    · rw [if_pos (hconst hcx hcy)]
      exact Nat.zero_le _
    · rw [if_pos hcx, if_neg hcy]
      split_ifs <;> omega
  · rw [if_neg hcx]
    by_cases hcy : y.isConst = true
    · have := hzero hcy
      split_ifs <;> omega
    · rw [if_neg hcy]
      split_ifs <;> omega

end Bounded

end SymbolicAlgebra
