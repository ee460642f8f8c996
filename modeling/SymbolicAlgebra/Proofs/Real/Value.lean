import SymbolicAlgebra.Evaluate
import SymbolicAlgebra.Proofs.Expr.Occurs
import SymbolicAlgebra.Proofs.Form.Constants
import SymbolicAlgebra.Proofs.Reading.List
import SymbolicAlgebra.Proofs.Real.Function

/-! # Values of expressions in the real numbers

`Expr.real? b e` is the value of an expression as a real number: every node must have one. It is the
number that evaluation gives (`eval_of_real?`). Powers of zero need a constant exponent, since the
sign of any other is not known when a power is moved below the line of a fraction.

The rules distribute an exponent over a product whatever the signs of the factors are. This is sound
for whole exponents. Other exponents are admitted over bases that never become a product, fraction
or power in the course of simplification, such as variables and numbers: `Rooted` expressions have
only such powers. `RealValue b e x` says that an expression is rooted and has the value `x`. It is a
reading (`reading_real`), so the rules of sums, products and fractions are sound for it. -/

namespace SymbolicAlgebra

namespace Expr

variable {α : Type}

/-! ### Rooted expressions -/

/-- Nodes that simplification takes to nodes of the same kind or to numbers. -/
def isSteady : Expr α → Bool
  | const _ => true
  | var _ => true
  | bracket _ _ => true
  | trig kind _ => kind.cancels?.isNone
  | sign _ => true
  | mod _ _ => true
  | min _ => true
  | max _ => true
  | _ => false

/-- A constant that is a whole number. -/
def IsWhole (e : Expr EReal) : Prop := ∃ n : ℤ, e = const ((n : ℝ) : EReal)

/-- Powers that the rules may take apart: with a whole exponent, or of a steady base. -/
def Admissible (base exponent : Expr EReal) : Prop := base.isSteady = true ∨ exponent.IsWhole

/-- **All powers have whole exponents or steady bases.** -/
def Rooted (e : Expr EReal) : Prop := ∀ a p, Occurs (power a p) e → Admissible a p

namespace Rooted

theorem const (x : EReal) : (const x).Rooted := fun a p h => by simp at h

theorem var (c : Char) : (var c).Rooted := fun a p h => by simp at h

theorem unary_iff {f : Unary} {a : Expr EReal} : (unary f a).Rooted ↔ a.Rooted := by
  simp [Rooted]

theorem binary_iff {f : Binary} {a b : Expr EReal} : (binary f a b).Rooted ↔
    (f = .power → Admissible a b) ∧ a.Rooted ∧ b.Rooted := by
  simp only [Rooted, Occurs.binary_iff, or_imp, forall_and, binary.injEq]
  refine and_congr_left fun _ => ?_
  constructor
  · rintro h rfl
    exact h a b ⟨rfl, rfl, rfl⟩
  · rintro h _ _ ⟨rfl, rfl, rfl⟩
    exact h rfl

theorem nary_iff {f : Nary} {as : List (Expr EReal)} :
    (nary f as).Rooted ↔ ∀ a ∈ as, a.Rooted := by
  simp only [Rooted, Occurs.nary_iff, reduceCtorEq, false_or, forall_exists_index, and_imp]
  constructor
  · exact fun h a ha b p hocc => h b p a ha hocc
  · exact fun h b p a ha hocc => h a ha b p hocc

end Rooted

/-! ### Values -/

/-- A number as a real number. -/
noncomputable def finiteReal? (x : EReal) : Option ℝ :=
  if x = ⊤ ∨ x = ⊥ then none else some x.toReal

theorem finiteReal?_eq_some_iff {x : EReal} {y : ℝ} : finiteReal? x = some y ↔ x = y := by
  unfold finiteReal?
  induction x with
  | bot => simp
  | coe x => simp
  | top => simp

mutual

/-- **The value of an expression in the real numbers**, if every node has one. -/
noncomputable def real? (b : Bindings EReal) : Expr EReal → Option ℝ
  | const x => finiteReal? x
  | var c => (b.get? c).bind finiteReal?
  | unary f a => (real? b a).bind f.real?
  | binary f a c =>
    (real? b a).bind fun x => (real? b c).bind fun y =>
      if f = .power ∧ x = 0 ∧ c.isConst = false then none else f.real? x y
  | nary f as => (reals? b as).bind f.real?

/-- The values of expressions in the real numbers. -/
noncomputable def reals? (b : Bindings EReal) : List (Expr EReal) → Option (List ℝ)
  | [] => some []
  | a :: as => (real? b a).bind fun x => (reals? b as).bind fun xs => some (x :: xs)

end

theorem reals?_eq_some_iff {b : Bindings EReal} : ∀ {as : List (Expr EReal)} {xs : List ℝ},
    reals? b as = some xs ↔ List.Forall₂ (fun a x => real? b a = some x) as xs
  | [], xs => by
    rw [reals?, Option.some.injEq, List.forall₂_nil_left_iff, eq_comm]
  | a :: as, xs => by
    simp only [reals?, Option.bind_eq_some_iff, Option.some.injEq, List.forall₂_cons_left_iff,
      reals?_eq_some_iff]
    constructor
    · rintro ⟨x, hx, xs', hxs, rfl⟩
      exact ⟨x, xs', hx, hxs, rfl⟩
    · rintro ⟨x, xs', hx, hxs, rfl⟩
      exact ⟨x, hx, xs', hxs, rfl⟩

mutual

/-- **Evaluation gives the value in the real numbers.** -/
theorem eval_of_real? [RealScalar] {b : Bindings EReal} : ∀ {e : Expr EReal} {x : ℝ},
    real? b e = some x → e.eval b = .ok (x : EReal)
  | const c, x, h => by
    rw [real?, finiteReal?_eq_some_iff] at h
    rw [eval, h]
  | var c, x, h => by
    rw [real?, Option.bind_eq_some_iff] at h
    obtain ⟨y, hy, hx⟩ := h
    rw [eval, hy, finiteReal?_eq_some_iff.mp hx]
  | unary f a, x, h => by
    rw [real?, Option.bind_eq_some_iff] at h
    obtain ⟨y, hy, hx⟩ := h
    rw [eval, eval_of_real? hy]
    exact congrArg Except.ok (Unary.apply_real hx)
  | binary f a c, x, h => by
    simp only [real?, Option.bind_eq_some_iff, Option.ite_none_left_eq_some] at h
    obtain ⟨y, hy, z, hz, -, hx⟩ := h
    rw [eval, eval_of_real? hy, eval_of_real? hz]
    exact congrArg Except.ok (Binary.apply_real hx)
  | nary f as, x, h => by
    rw [real?, Option.bind_eq_some_iff] at h
    obtain ⟨ys, hys, hx⟩ := h
    rw [eval, evalList_of_reals? hys]
    exact congrArg Except.ok (Nary.apply_real hx)

theorem evalList_of_reals? [RealScalar] {b : Bindings EReal} : ∀ {es : List (Expr EReal)}
    {xs : List ℝ}, reals? b es = some xs → evalList b es = .ok (xs.map Real.toEReal)
  | [], xs, h => by
    rw [reals?, Option.some.injEq] at h
    rw [evalList, ← h]
    rfl
  | e :: es, xs, h => by
    simp only [reals?, Option.bind_eq_some_iff, Option.some.injEq] at h
    obtain ⟨y, hy, ys, hys, rfl⟩ := h
    rw [evalList, eval_of_real? hy, evalList_of_reals? hys]
    rfl

end

/-! ### Equality -/

mutual

/-- **Equal expressions are the same** over extended real numbers. -/
theorem eq_of_beq_real [RealScalar] : ∀ {a b : Expr EReal}, Expr.beq a b = true → a = b
  | const x, b, h => by cases b <;> simp_all [Expr.beq, RealScalar.same_iff]
  | var x, b, h => by cases b <;> simp_all [Expr.beq]
  | unary f a, b, h => by
    cases b with
    | unary g b =>
      simp only [Expr.beq, Bool.and_eq_true, beq_iff_eq] at h
      rw [h.1, eq_of_beq_real h.2]
    | _ => simp [Expr.beq] at h
  | binary f a₁ a₂, b, h => by
    cases b with
    | binary g b₁ b₂ =>
      simp only [Expr.beq, Bool.and_eq_true, beq_iff_eq] at h
      rw [h.1.1, eq_of_beq_real h.1.2, eq_of_beq_real h.2]
    | _ => simp [Expr.beq] at h
  | nary f as, b, h => by
    cases b with
    | nary g bs =>
      simp only [Expr.beq, Bool.and_eq_true, beq_iff_eq] at h
      rw [h.1, eq_of_beqList_real h.2]
    | _ => simp [Expr.beq] at h

theorem eq_of_beqList_real [RealScalar] : ∀ {as bs : List (Expr EReal)},
    Expr.beqList as bs = true → as = bs
  | [], bs, h => by cases bs <;> simp_all [Expr.beqList]
  | a :: as, bs, h => by
    cases bs with
    | nil => simp [Expr.beqList] at h
    | cons b bs =>
      simp only [Expr.beqList, Bool.and_eq_true] at h
      rw [eq_of_beq_real h.1, eq_of_beqList_real h.2]

end

end Expr

/-! ### The reading -/

/-- A rooted expression with the value that it has under the bindings. -/
structure RealValue (b : Bindings EReal) (e : Expr EReal) (x : ℝ) : Prop where
  rooted : e.Rooted
  real?_eq : e.real? b = some x

namespace RealValue

variable {b : Bindings EReal}

theorem unique {e : Expr EReal} {x y : ℝ} (hx : RealValue b e x) (hy : RealValue b e y) : x = y :=
  Option.some.inj (hx.real?_eq.symm.trans hy.real?_eq)

theorem const_iff {c : EReal} {x : ℝ} : RealValue b (.const c) x ↔ c = x := by
  constructor
  · intro h
    have hx := h.real?_eq
    rwa [Expr.real?, Expr.finiteReal?_eq_some_iff] at hx
  · rintro rfl
    exact ⟨.const _, by rw [Expr.real?, Expr.finiteReal?_eq_some_iff]⟩

theorem const (x : ℝ) : RealValue b (.const x) x := const_iff.mpr rfl

theorem var_iff {c : Char} {x : ℝ} : RealValue b (.var c) x ↔ b.get? c = some (x : EReal) := by
  constructor
  · intro h
    have hx := h.real?_eq
    rw [Expr.real?, Option.bind_eq_some_iff] at hx
    obtain ⟨y, hy, hx⟩ := hx
    rw [hy, Expr.finiteReal?_eq_some_iff.mp hx]
  · intro h
    refine ⟨.var c, ?_⟩
    rw [Expr.real?, h, Option.bind_some, Expr.finiteReal?_eq_some_iff]

theorem unary_iff {f : Unary} {a : Expr EReal} {y : ℝ} :
    RealValue b (.unary f a) y ↔ ∃ x, RealValue b a x ∧ f.real? x = some y := by
  constructor
  · rintro ⟨hr, h⟩
    rw [Expr.real?, Option.bind_eq_some_iff] at h
    obtain ⟨x, hx, hy⟩ := h
    exact ⟨x, ⟨Expr.Rooted.unary_iff.mp hr, hx⟩, hy⟩
  · rintro ⟨x, hx, hy⟩
    refine ⟨Expr.Rooted.unary_iff.mpr hx.rooted, ?_⟩
    rw [Expr.real?, hx.real?_eq, Option.bind_some, hy]

theorem binary_iff {f : Binary} (hf : f ≠ .power) {a c : Expr EReal} {z : ℝ} :
    RealValue b (.binary f a c) z ↔
      ∃ x y, RealValue b a x ∧ RealValue b c y ∧ f.real? x y = some z := by
  constructor
  · rintro ⟨hr, h⟩
    obtain ⟨-, ha, hc⟩ := Expr.Rooted.binary_iff.mp hr
    simp only [Expr.real?, Option.bind_eq_some_iff, Option.ite_none_left_eq_some] at h
    obtain ⟨x, hx, y, hy, -, hz⟩ := h
    exact ⟨x, y, ⟨ha, hx⟩, ⟨hc, hy⟩, hz⟩
  · rintro ⟨x, y, hx, hy, hz⟩
    refine ⟨Expr.Rooted.binary_iff.mpr ⟨fun h => absurd h hf, hx.rooted, hy.rooted⟩, ?_⟩
    rw [Expr.real?, hx.real?_eq, hy.real?_eq, Option.bind_some, Option.bind_some,
      if_neg fun h => hf h.1, hz]

theorem fraction_iff {a c : Expr EReal} {z : ℝ} : RealValue b (.fraction a c) z ↔
    ∃ x y, RealValue b a x ∧ RealValue b c y ∧ y ≠ 0 ∧ z = x / y := by
  rw [binary_iff (by decide)]
  simp only [Binary.real?, Option.ite_none_left_eq_some, Option.some.injEq]
  simp only [eq_comm]

/-- A power: the exponent is whole or the base steady, and a base of zero has a constant exponent. -/
theorem power_iff {a p : Expr EReal} {z : ℝ} : RealValue b (.power a p) z ↔
    ∃ x y, RealValue b a x ∧ RealValue b p y ∧ Expr.Admissible a p ∧
      (x = 0 → p.isConst = true) ∧ realPower? x y = some z := by
  constructor
  · rintro ⟨hr, h⟩
    obtain ⟨hadmissible, ha, hp⟩ := Expr.Rooted.binary_iff.mp hr
    simp only [Expr.real?, Option.bind_eq_some_iff, Option.ite_none_left_eq_some] at h
    obtain ⟨x, hx, y, hy, hzero, hz⟩ := h
    refine ⟨x, y, ⟨ha, hx⟩, ⟨hp, hy⟩, hadmissible rfl, fun h0 => ?_, hz⟩
    by_contra hconst
    exact hzero ⟨trivial, h0, Bool.eq_false_iff.mpr hconst⟩
  · rintro ⟨x, y, hx, hy, hadmissible, hzero, hz⟩
    refine ⟨Expr.Rooted.binary_iff.mpr ⟨fun _ => hadmissible, hx.rooted, hy.rooted⟩, ?_⟩
    rw [Expr.real?, hx.real?_eq, hy.real?_eq, Option.bind_some, Option.bind_some, if_neg, ← hz]
    · rfl
    · rintro ⟨-, h0, hconst⟩
      rw [hzero h0] at hconst
      cases hconst

theorem whole_power {a : Expr EReal} {x : ℝ} (n : ℤ) (ha : RealValue b a x) (hn : n < 0 → x ≠ 0) :
    RealValue b (.power a (.const ((n : ℝ) : EReal))) (x ^ n) :=
  power_iff.mpr ⟨x, n, ha, .const _, .inr ⟨n, rfl⟩, fun _ => rfl, realPower?_int.mpr ⟨hn, rfl⟩⟩

theorem list_iff {as : List (Expr EReal)} {xs : List ℝ} :
    List.Forall₂ (RealValue b) as xs ↔ (∀ a ∈ as, a.Rooted) ∧ Expr.reals? b as = some xs := by
  rw [Expr.reals?_eq_some_iff]
  constructor
  · intro h
    refine ⟨?_, h.imp fun _ _ hv => hv.real?_eq⟩
    induction h with
    | nil => simp
    | cons hv _ ih => exact List.forall_mem_cons.mpr ⟨hv.rooted, ih⟩
  · rintro ⟨hr, h⟩
    induction h with
    | nil => exact .nil
    | cons hx _ ih =>
      obtain ⟨ha, has⟩ := List.forall_mem_cons.mp hr
      exact .cons ⟨ha, hx⟩ (ih has)

theorem nary_iff {f : Nary} {as : List (Expr EReal)} {y : ℝ} :
    RealValue b (.nary f as) y ↔ ∃ xs, List.Forall₂ (RealValue b) as xs ∧ f.real? xs = some y := by
  constructor
  · rintro ⟨hr, h⟩
    rw [Expr.real?, Option.bind_eq_some_iff] at h
    obtain ⟨xs, hxs, hy⟩ := h
    exact ⟨xs, list_iff.mpr ⟨Expr.Rooted.nary_iff.mp hr, hxs⟩, hy⟩
  · rintro ⟨xs, hxs, hy⟩
    obtain ⟨hr, hxs⟩ := list_iff.mp hxs
    refine ⟨Expr.Rooted.nary_iff.mpr hr, ?_⟩
    rw [Expr.real?, hxs, Option.bind_some, hy]

end RealValue

variable [RealScalar]

/-- **Values in the real numbers are a reading.** -/
theorem reading_real (b : Bindings EReal) : Reading (RealValue b) where
  unique := RealValue.unique
  eq_of_beq := Expr.eq_of_beq_real
  zero := RealValue.const_iff.mpr RealScalar.zero_eq
  negZero := RealValue.const_iff.mpr RealScalar.negZero_eq
  one := RealValue.const_iff.mpr RealScalar.one_eq
  eq {c d x y} hx hy h := by
    rw [RealScalar.eq_eq, decide_eq_true_eq, RealValue.const_iff.mp hx,
      RealValue.const_iff.mp hy] at h
    exact_mod_cast h
  add {c d x y} hx hy := by
    rw [RealValue.const_iff.mp hx, RealValue.const_iff.mp hy, RealScalar.add_eq]
    exact .const _
  mul {c d x y} hx hy := by
    rw [RealValue.const_iff.mp hx, RealValue.const_iff.mp hy, RealScalar.mul_eq]
    exact .const _
  div {c d x y} hx hy hne := by
    rw [RealValue.const_iff.mp hx, RealValue.const_iff.mp hy, RealScalar.div_eq x hne]
    exact .const _
  sum_iff {ts x} := by
    rw [RealValue.nary_iff]
    simp only [Nary.real?, Option.some.injEq]
    rfl
  product_iff {fs x} := by
    rw [RealValue.nary_iff]
    simp only [Nary.real?, Option.some.injEq]
    rfl
  fraction_iff := RealValue.fraction_iff
  power_one {a x} ha := by
    have hone := ha.whole_power 1 (by omega)
    rw [RealScalar.one_eq]
    simpa using hone
  recip {a x} ha hx := by
    have hminus := ha.whole_power (-1) fun _ => hx
    rw [Expr.recip, RealScalar.negOne_eq]
    simpa using hminus
  below {a p z} h hneg := by
    obtain ⟨x, y, hx, hy, hadmissible, hzero, hz⟩ := RealValue.power_iff.mp h
    refine realPower?_ne_zero (fun h0 => ?_) hz
    -- a power of zero with a negative exponent has no value
    obtain ⟨c, rfl⟩ := Expr.isConst_iff_exists.mp (hzero h0)
    have hc := RealValue.const_iff.mp hy
    have hlt : y < 0 := by
      have hlt : Scalar.lt c Scalar.zero = true := hneg
      rw [RealScalar.lt_eq, decide_eq_true_eq, RealScalar.zero_eq, hc] at hlt
      exact_mod_cast hlt
    rw [h0, realPower?_eq_some_iff] at hz
    rcases hz with ⟨h, -⟩ | ⟨-, rfl, -⟩ | ⟨-, hpos, -⟩ | ⟨h, -⟩
    · exact lt_irrefl 0 h
    · exact lt_irrefl 0 hlt
    · exact lt_asymm hlt hpos
    · exact lt_irrefl 0 h

end SymbolicAlgebra
