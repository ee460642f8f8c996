import Mathlib
import SymbolicAlgebra.Simplify.Task

/-! # Readings

A *reading* says which values expressions have in a field: `V e x` if the value of `e` is `x`, and
`V e x` for no `x` at all if `e` has none. `Reading V` lists what the rules of sums, products and
fractions need of it: that constants compute as the field does, and that these three nodes have a
value exactly if their parts have values that the field can add, multiply or divide. What a reading
makes of other nodes is open, so the rules are sound for any of them.

Lists are read in two ways, as terms that add up to a value (`SumReads`) and as factors that
multiply to one (`ProductReads`). A *sound* solver keeps what tasks are read as. -/

namespace SymbolicAlgebra

variable {α K : Type} [Field K] {V : Expr α → K → Prop}

/-! ### Lists -/

/-- The terms have values that add up to `x`. -/
def SumReads (V : Expr α → K → Prop) (ts : List (Expr α)) (x : K) : Prop :=
  ∃ xs, List.Forall₂ V ts xs ∧ xs.sum = x

/-- The factors have values that multiply to `x`. -/
def ProductReads (V : Expr α → K → Prop) (fs : List (Expr α)) (x : K) : Prop :=
  ∃ xs, List.Forall₂ V fs xs ∧ xs.prod = x

omit [Field K] in
/-- Lists are read alike in any order, but for the order of the values. -/
theorem forall₂_perm {fs gs : List (Expr α)} {xs : List K} (h : List.Forall₂ V fs xs)
    (p : gs.Perm fs) : ∃ ys, List.Forall₂ V gs ys ∧ ys.Perm xs :=
  List.perm_comp_forall₂ p h

namespace SumReads

theorem nil : SumReads V [] 0 := ⟨[], .nil, rfl⟩

theorem cons_iff {t : Expr α} {ts : List (Expr α)} {x : K} :
    SumReads V (t :: ts) x ↔ ∃ a b, V t a ∧ SumReads V ts b ∧ x = a + b := by
  constructor
  · rintro ⟨xs, hxs, rfl⟩
    cases hxs with
    | cons ht hts => exact ⟨_, _, ht, ⟨_, hts, rfl⟩, List.sum_cons⟩
  · rintro ⟨a, _, ht, ⟨xs, hts, rfl⟩, rfl⟩
    exact ⟨a :: xs, .cons ht hts, List.sum_cons⟩

theorem cons {t : Expr α} {ts : List (Expr α)} {a b : K} (ht : V t a) (hts : SumReads V ts b) :
    SumReads V (t :: ts) (a + b) :=
  cons_iff.mpr ⟨a, b, ht, hts, rfl⟩

theorem nil_iff {x : K} : SumReads V [] x ↔ x = 0 := by
  constructor
  · rintro ⟨xs, hxs, rfl⟩
    cases hxs
    rfl
  · rintro rfl
    exact nil

theorem singleton_iff {t : Expr α} {x : K} : SumReads V [t] x ↔ V t x := by
  simp [cons_iff, nil_iff]

theorem append_iff {ts us : List (Expr α)} {x : K} :
    SumReads V (ts ++ us) x ↔ ∃ a b, SumReads V ts a ∧ SumReads V us b ∧ x = a + b := by
  induction ts generalizing x with
  | nil => simp [nil_iff]
  | cons t ts ih =>
    simp only [List.cons_append, cons_iff, ih]
    constructor
    · rintro ⟨a, _, ht, ⟨b, c, hts, hus, rfl⟩, rfl⟩
      exact ⟨a + b, c, ⟨a, b, ht, hts, rfl⟩, hus, (add_assoc a b c).symm⟩
    · rintro ⟨_, c, ⟨a, b, ht, hts, rfl⟩, hus, rfl⟩
      exact ⟨a, b + c, ht, ⟨b, c, hts, hus, rfl⟩, add_assoc a b c⟩

theorem append {ts us : List (Expr α)} {a b : K} (ht : SumReads V ts a) (hu : SumReads V us b) :
    SumReads V (ts ++ us) (a + b) :=
  append_iff.mpr ⟨a, b, ht, hu, rfl⟩

/-- **The order of terms does not matter.** -/
theorem perm {ts us : List (Expr α)} {x : K} (h : SumReads V ts x) (p : us.Perm ts) :
    SumReads V us x := by
  obtain ⟨xs, hxs, rfl⟩ := h
  obtain ⟨ys, hys, hperm⟩ := forall₂_perm hxs p
  exact ⟨ys, hys, hperm.sum_eq⟩

end SumReads

namespace ProductReads

theorem nil : ProductReads V [] 1 := ⟨[], .nil, rfl⟩

theorem cons_iff {f : Expr α} {fs : List (Expr α)} {x : K} :
    ProductReads V (f :: fs) x ↔ ∃ a b, V f a ∧ ProductReads V fs b ∧ x = a * b := by
  constructor
  · rintro ⟨xs, hxs, rfl⟩
    cases hxs with
    | cons hf hfs => exact ⟨_, _, hf, ⟨_, hfs, rfl⟩, List.prod_cons⟩
  · rintro ⟨a, _, hf, ⟨xs, hfs, rfl⟩, rfl⟩
    exact ⟨a :: xs, .cons hf hfs, List.prod_cons⟩

theorem cons {f : Expr α} {fs : List (Expr α)} {a b : K} (hf : V f a)
    (hfs : ProductReads V fs b) : ProductReads V (f :: fs) (a * b) :=
  cons_iff.mpr ⟨a, b, hf, hfs, rfl⟩

theorem nil_iff {x : K} : ProductReads V [] x ↔ x = 1 := by
  constructor
  · rintro ⟨xs, hxs, rfl⟩
    cases hxs
    rfl
  · rintro rfl
    exact nil

theorem singleton_iff {f : Expr α} {x : K} : ProductReads V [f] x ↔ V f x := by
  simp [cons_iff, nil_iff]

theorem pair {f g : Expr α} {a b : K} (hf : V f a) (hg : V g b) :
    ProductReads V [f, g] (a * b) :=
  cons hf (singleton_iff.mpr hg)

theorem append_iff {fs gs : List (Expr α)} {x : K} :
    ProductReads V (fs ++ gs) x ↔
      ∃ a b, ProductReads V fs a ∧ ProductReads V gs b ∧ x = a * b := by
  induction fs generalizing x with
  | nil => simp [nil_iff]
  | cons f fs ih =>
    simp only [List.cons_append, cons_iff, ih]
    constructor
    · rintro ⟨a, _, hf, ⟨b, c, hfs, hgs, rfl⟩, rfl⟩
      exact ⟨a * b, c, ⟨a, b, hf, hfs, rfl⟩, hgs, (mul_assoc a b c).symm⟩
    · rintro ⟨_, c, ⟨a, b, hf, hfs, rfl⟩, hgs, rfl⟩
      exact ⟨a, b * c, hf, ⟨b, c, hfs, hgs, rfl⟩, mul_assoc a b c⟩

theorem append {fs gs : List (Expr α)} {a b : K} (hf : ProductReads V fs a)
    (hg : ProductReads V gs b) : ProductReads V (fs ++ gs) (a * b) :=
  append_iff.mpr ⟨a, b, hf, hg, rfl⟩

/-- **The order of factors does not matter.** -/
theorem perm {fs gs : List (Expr α)} {x : K} (h : ProductReads V fs x) (p : gs.Perm fs) :
    ProductReads V gs x := by
  obtain ⟨xs, hxs, rfl⟩ := h
  obtain ⟨ys, hys, hperm⟩ := forall₂_perm hxs p
  exact ⟨ys, hys, hperm.prod_eq⟩

/-- **A factor that is zero makes the product zero.** -/
theorem eq_zero_of_mem {fs : List (Expr α)} {x : K} (h : ProductReads V fs x) {f : Expr α}
    (hf : f ∈ fs) (hzero : ∀ y, V f y → y = 0) : x = 0 := by
  obtain ⟨xs, hxs, rfl⟩ := h
  induction hxs with
  | nil => cases hf
  | cons hg hgs ih =>
    rw [List.prod_cons]
    rcases List.mem_cons.mp hf with rfl | hf
    · rw [hzero _ hg, zero_mul]
    · rw [ih hf, mul_zero]

end ProductReads

/-! ### Readings -/

/-- **A reading of expressions in a field**: sums, products and fractions have the values that the
arithmetic of the field gives, and so have constants, as far as the rules compute with them. -/
structure Reading [Scalar α] (V : Expr α → K → Prop) : Prop where
  unique {e : Expr α} {x y : K} : V e x → V e y → x = y
  /-- Equal expressions are the same. -/
  eq_of_beq {a b : Expr α} : (a == b) = true → a = b
  zero : V (.const Scalar.zero) 0
  negZero : V (.const Scalar.negZero) 0
  one : V (.const Scalar.one) 1
  eq {a b : α} {x y : K} : V (.const a) x → V (.const b) y → Scalar.eq a b = true → x = y
  add {a b : α} {x y : K} : V (.const a) x → V (.const b) y → V (.const (Scalar.add a b)) (x + y)
  mul {a b : α} {x y : K} : V (.const a) x → V (.const b) y → V (.const (Scalar.mul a b)) (x * y)
  div {a b : α} {x y : K} : V (.const a) x → V (.const b) y → y ≠ 0 →
    V (.const (Scalar.div a b)) (x / y)
  sum_iff {ts : List (Expr α)} {x : K} : V (.sum ts) x ↔ SumReads V ts x
  product_iff {fs : List (Expr α)} {x : K} : V (.product fs) x ↔ ProductReads V fs x
  fraction_iff {a b : Expr α} {z : K} : V (.fraction a b) z ↔
    ∃ x y, V a x ∧ V b y ∧ y ≠ 0 ∧ z = x / y
  power_one {b : Expr α} {x : K} : V b x → V (.power b (.const Scalar.one)) x
  recip {b : Expr α} {x : K} : V b x → x ≠ 0 → V b.recip x⁻¹
  /-- A power with a negative exponent is not zero. -/
  below {b e : Expr α} {x : K} : V (.power b e) x → e.isNegative = true → x ≠ 0

namespace Reading

variable [Scalar α] (hV : Reading V)
include hV

theorem fraction {a b : Expr α} {x y : K} (ha : V a x) (hb : V b y) (hy : y ≠ 0) :
    V (.fraction a b) (x / y) := hV.fraction_iff.mpr ⟨x, y, ha, hb, hy, rfl⟩

theorem sumOf {ts : List (Expr α)} {x : K} (h : SumReads V ts x) : V (.sumOf ts) x :=
  hV.sum_iff.mpr (h.perm (StableSort.sort_perm _ ts))

theorem productOf {fs : List (Expr α)} {x : K} (h : ProductReads V fs x) :
    V (.productOf fs) x :=
  hV.product_iff.mpr (h.perm (StableSort.sort_perm _ fs))

theorem downgrade {e : Expr α} {x : K} (h : V e x) : V e.downgrade x := by
  unfold Expr.downgrade
  split
  · rw [SumReads.nil_iff.mp (hV.sum_iff.mp h)]
    exact hV.zero
  · exact SumReads.singleton_iff.mp (hV.sum_iff.mp h)
  · rw [ProductReads.nil_iff.mp (hV.product_iff.mp h)]
    exact hV.one
  · exact ProductReads.singleton_iff.mp (hV.product_iff.mp h)
  · exact h

theorem product_unique {fs : List (Expr α)} {x y : K} (hx : ProductReads V fs x)
    (hy : ProductReads V fs y) : x = y := by
  obtain ⟨xs, hxs, rfl⟩ := hx
  obtain ⟨ys, hys, rfl⟩ := hy
  have hunique : Relator.RightUnique V := fun _ _ _ h h' => hV.unique h h'
  rw [hunique.forall₂ hxs hys]

/-! ### Constants -/

theorem eq_zero_of_isZero {e : Expr α} {x : K} (h : V e x) (hzero : e.isZero = true) : x = 0 := by
  cases e with
  | const c => exact hV.eq h hV.zero hzero
  | _ => cases hzero

theorem eq_one_of_isOne {e : Expr α} {x : K} (h : V e x) (hone : e.isOne = true) : x = 1 := by
  cases e with
  | const c => exact hV.eq h hV.one hone
  | _ => cases hone

/-- Constants add up from left to right. -/
theorem foldl_add {cs : List α} {x : K} (h : SumReads V (cs.map .const) x) {a : α} {y : K}
    (ha : V (.const a) y) : V (.const (cs.foldl Scalar.add a)) (y + x) := by
  induction cs generalizing a x y with
  | nil =>
    rwa [SumReads.nil_iff.mp h, add_zero]
  | cons c cs ih =>
    obtain ⟨u, v, hu, hv, rfl⟩ := SumReads.cons_iff.mp h
    rw [← add_assoc]
    exact ih hv (hV.add ha hu)

theorem foldl_mul {cs : List α} {x : K} (h : ProductReads V (cs.map .const) x) {a : α} {y : K}
    (ha : V (.const a) y) : V (.const (cs.foldl Scalar.mul a)) (y * x) := by
  induction cs generalizing a x y with
  | nil =>
    rwa [ProductReads.nil_iff.mp h, mul_one]
  | cons c cs ih =>
    obtain ⟨u, v, hu, hv, rfl⟩ := ProductReads.cons_iff.mp h
    rw [← mul_assoc]
    exact ih hv (hV.mul ha hu)

theorem scalar_sum {cs : List α} {x : K} (h : SumReads V (cs.map .const) x) :
    V (.const (Scalar.sum cs)) x := by
  have hall := hV.foldl_add h hV.negZero
  rwa [zero_add] at hall

theorem scalar_product {cs : List α} {x : K} (h : ProductReads V (cs.map .const) x) :
    V (.const (Scalar.product cs)) x := by
  have hall := hV.foldl_mul h hV.one
  rwa [one_mul] at hall

theorem eq_of_beqList : ∀ {as bs : List (Expr α)}, Expr.beqList as bs = true → as = bs
  | [], [], _ => rfl
  | [], _ :: _, h => by simp [Expr.beqList] at h
  | _ :: _, [], h => by simp [Expr.beqList] at h
  | a :: as, b :: bs, h => by
    rw [Expr.beqList, Bool.and_eq_true] at h
    rw [hV.eq_of_beq h.1, eq_of_beqList h.2]

end Reading

/-! ### Tasks and solvers -/

/-- **A solver that keeps what tasks are read as.** Exponents are negated and added up so that the
powers keep their values. -/
structure Sound [Scalar α] (V : Expr α → K → Prop) (solve : Solver α) : Prop where
  step {e r : Expr α} {x : K} : V e x → solve (.step e) = some r → V r x
  sum {ts : List (Expr α)} {r : Expr α} {x : K} : SumReads V ts x → solve (.sum ts) = some r → V r x
  product {fs : List (Expr α)} {r : Expr α} {x : K} : ProductReads V fs x →
    solve (.product fs) = some r → V r x
  negate {b e r : Expr α} {x : K} : V (.power b e) x → x ≠ 0 →
    solve (.product [.const Scalar.negOne, e]) = some r → V (.power b r) x⁻¹
  collect {b r : Expr α} {es : List (Expr α)} {x : K} : es ≠ [] →
    ProductReads V (es.map fun e => .power b e) x → solve (.sum es) = some r → V (.power b r) x

namespace Sound

variable [Scalar α] {solve : Solver α} (hs : Sound V solve)
include hs

theorem steps : ∀ {es rs : List (Expr α)} {xs : List K}, List.Forall₂ V es xs →
    solve.steps es = some rs → List.Forall₂ V rs xs
  | [], rs, _, .nil, h => by
    rw [Solver.steps, Option.some.injEq] at h
    rw [← h]
    exact .nil
  | e :: es, rs, _, .cons he hes, h => by
    simp only [Solver.steps, Option.bind_eq_bind, Option.bind_eq_some_iff, Option.some.injEq] at h
    obtain ⟨r, hr, rs', hrs, rfl⟩ := h
    exact .cons (hs.step he hr) (steps hes hrs)

theorem steps_sum {ts us : List (Expr α)} {x : K} (h : SumReads V ts x)
    (hus : solve.steps ts = some us) : SumReads V us x := by
  obtain ⟨xs, hxs, rfl⟩ := h
  exact ⟨xs, hs.steps hxs hus, rfl⟩

theorem steps_product {fs gs : List (Expr α)} {x : K} (h : ProductReads V fs x)
    (hgs : solve.steps fs = some gs) : ProductReads V gs x := by
  obtain ⟨xs, hxs, rfl⟩ := h
  exact ⟨xs, hs.steps hxs hgs, rfl⟩

end Sound

end SymbolicAlgebra
