import SymbolicAlgebra.Proofs.Exact.Value

/-! # Lists of terms and of factors

`SumsTo ρ ts x` says that all terms of a list are defined at `ρ` and add up to `x`, and
`MultipliesTo ρ fs x` that all factors are and multiply to `x`. Neither depends on the order of the
list. A task has the value of the expression, the sum or the product that it is about, and an
*exact* solver keeps the values of tasks. -/

namespace SymbolicAlgebra

variable {ρ : Char → ℚ}

/-- The terms are defined and add up to `x`. -/
structure SumsTo (ρ : Char → ℚ) (ts : List (Expr ℚ)) (x : ℚ) : Prop where
  isDefined : ∀ t ∈ ts, Defined ρ t
  sum_eq : (ts.map (Expr.value ρ)).sum = x

/-- The factors are defined and multiply to `x`. -/
structure MultipliesTo (ρ : Char → ℚ) (fs : List (Expr ℚ)) (x : ℚ) : Prop where
  isDefined : ∀ f ∈ fs, Defined ρ f
  prod_eq : (fs.map (Expr.value ρ)).prod = x

theorem hasValue_sum_iff {ts : List (Expr ℚ)} {x : ℚ} :
    HasValue ρ (.sum ts) x ↔ SumsTo ρ ts x := by
  constructor
  · rintro ⟨hd, hv⟩
    exact ⟨hd.of_sum, by rw [← hv, Expr.value_sum]⟩
  · rintro ⟨hd, hv⟩
    exact ⟨.sum hd, by rw [← hv, Expr.value_sum]⟩

theorem hasValue_product_iff {fs : List (Expr ℚ)} {x : ℚ} :
    HasValue ρ (.product fs) x ↔ MultipliesTo ρ fs x := by
  constructor
  · rintro ⟨hd, hv⟩
    exact ⟨hd.of_product, by rw [← hv, Expr.value_product]⟩
  · rintro ⟨hd, hv⟩
    exact ⟨.product hd, by rw [← hv, Expr.value_product]⟩

namespace SumsTo

theorem nil : SumsTo ρ [] 0 := ⟨by simp, rfl⟩

theorem cons_iff {t : Expr ℚ} {ts : List (Expr ℚ)} {x : ℚ} :
    SumsTo ρ (t :: ts) x ↔ ∃ a b, HasValue ρ t a ∧ SumsTo ρ ts b ∧ x = a + b := by
  constructor
  · rintro ⟨hd, hv⟩
    obtain ⟨ht, hts⟩ := List.forall_mem_cons.mp hd
    exact ⟨_, _, ht.hasValue, ⟨hts, rfl⟩, by rw [← hv, List.map_cons, List.sum_cons]⟩
  · rintro ⟨a, b, ht, hts, rfl⟩
    refine ⟨List.forall_mem_cons.mpr ⟨ht.isDefined, hts.isDefined⟩, ?_⟩
    rw [List.map_cons, List.sum_cons, ht.value_eq, hts.sum_eq]

theorem cons {t : Expr ℚ} {ts : List (Expr ℚ)} {a b : ℚ} (ht : HasValue ρ t a)
    (hts : SumsTo ρ ts b) : SumsTo ρ (t :: ts) (a + b) :=
  cons_iff.mpr ⟨a, b, ht, hts, rfl⟩

theorem singleton_iff {t : Expr ℚ} {x : ℚ} : SumsTo ρ [t] x ↔ HasValue ρ t x := by
  constructor
  · rintro ⟨hd, hv⟩
    exact ⟨hd t (List.mem_singleton_self t), by simpa using hv⟩
  · rintro ⟨hd, hv⟩
    exact ⟨by simpa using hd, by simpa using hv⟩

theorem append_iff {ts us : List (Expr ℚ)} {x : ℚ} :
    SumsTo ρ (ts ++ us) x ↔ ∃ a b, SumsTo ρ ts a ∧ SumsTo ρ us b ∧ x = a + b := by
  constructor
  · rintro ⟨hd, hv⟩
    obtain ⟨ht, hu⟩ := List.forall_mem_append.mp hd
    exact ⟨_, _, ⟨ht, rfl⟩, ⟨hu, rfl⟩, by rw [← hv, List.map_append, List.sum_append]⟩
  · rintro ⟨a, b, ht, hu, rfl⟩
    refine ⟨List.forall_mem_append.mpr ⟨ht.isDefined, hu.isDefined⟩, ?_⟩
    rw [List.map_append, List.sum_append, ht.sum_eq, hu.sum_eq]

theorem append {ts us : List (Expr ℚ)} {a b : ℚ} (ht : SumsTo ρ ts a) (hu : SumsTo ρ us b) :
    SumsTo ρ (ts ++ us) (a + b) :=
  append_iff.mpr ⟨a, b, ht, hu, rfl⟩

/-- **The order of terms does not matter.** -/
theorem perm {ts us : List (Expr ℚ)} {x : ℚ} (h : SumsTo ρ ts x) (p : ts.Perm us) :
    SumsTo ρ us x :=
  ⟨fun t ht => h.isDefined t (p.mem_iff.mpr ht), by rw [← h.sum_eq, (p.map _).sum_eq]⟩

end SumsTo

namespace MultipliesTo

theorem nil : MultipliesTo ρ [] 1 := ⟨by simp, rfl⟩

theorem cons_iff {f : Expr ℚ} {fs : List (Expr ℚ)} {x : ℚ} :
    MultipliesTo ρ (f :: fs) x ↔ ∃ a b, HasValue ρ f a ∧ MultipliesTo ρ fs b ∧ x = a * b := by
  constructor
  · rintro ⟨hd, hv⟩
    obtain ⟨hf, hfs⟩ := List.forall_mem_cons.mp hd
    exact ⟨_, _, hf.hasValue, ⟨hfs, rfl⟩, by rw [← hv, List.map_cons, List.prod_cons]⟩
  · rintro ⟨a, b, hf, hfs, rfl⟩
    refine ⟨List.forall_mem_cons.mpr ⟨hf.isDefined, hfs.isDefined⟩, ?_⟩
    rw [List.map_cons, List.prod_cons, hf.value_eq, hfs.prod_eq]

theorem cons {f : Expr ℚ} {fs : List (Expr ℚ)} {a b : ℚ} (hf : HasValue ρ f a)
    (hfs : MultipliesTo ρ fs b) : MultipliesTo ρ (f :: fs) (a * b) :=
  cons_iff.mpr ⟨a, b, hf, hfs, rfl⟩

theorem singleton_iff {f : Expr ℚ} {x : ℚ} : MultipliesTo ρ [f] x ↔ HasValue ρ f x := by
  constructor
  · rintro ⟨hd, hv⟩
    exact ⟨hd f (List.mem_singleton_self f), by simpa using hv⟩
  · rintro ⟨hd, hv⟩
    exact ⟨by simpa using hd, by simpa using hv⟩

theorem pair {f g : Expr ℚ} {a b : ℚ} (hf : HasValue ρ f a) (hg : HasValue ρ g b) :
    MultipliesTo ρ [f, g] (a * b) :=
  cons hf (singleton_iff.mpr hg)

theorem append_iff {fs gs : List (Expr ℚ)} {x : ℚ} :
    MultipliesTo ρ (fs ++ gs) x ↔
      ∃ a b, MultipliesTo ρ fs a ∧ MultipliesTo ρ gs b ∧ x = a * b := by
  constructor
  · rintro ⟨hd, hv⟩
    obtain ⟨hf, hg⟩ := List.forall_mem_append.mp hd
    exact ⟨_, _, ⟨hf, rfl⟩, ⟨hg, rfl⟩, by rw [← hv, List.map_append, List.prod_append]⟩
  · rintro ⟨a, b, hf, hg, rfl⟩
    refine ⟨List.forall_mem_append.mpr ⟨hf.isDefined, hg.isDefined⟩, ?_⟩
    rw [List.map_append, List.prod_append, hf.prod_eq, hg.prod_eq]

theorem append {fs gs : List (Expr ℚ)} {a b : ℚ} (hf : MultipliesTo ρ fs a)
    (hg : MultipliesTo ρ gs b) : MultipliesTo ρ (fs ++ gs) (a * b) :=
  append_iff.mpr ⟨a, b, hf, hg, rfl⟩

/-- **The order of factors does not matter.** -/
theorem perm {fs gs : List (Expr ℚ)} {x : ℚ} (h : MultipliesTo ρ fs x) (p : fs.Perm gs) :
    MultipliesTo ρ gs x :=
  ⟨fun f hf => h.isDefined f (p.mem_iff.mpr hf), by rw [← h.prod_eq, (p.map _).prod_eq]⟩

end MultipliesTo

theorem ascending_perm {α : Type} [Scalar α] (es : List (Expr α)) :
    (Expr.ascending es).Perm es := StableSort.sort_perm _ es

theorem descending_perm {α : Type} [Scalar α] (es : List (Expr α)) :
    (Expr.descending es).Perm es := StableSort.sort_perm _ es

theorem constant?_eq_some_iff {e : Expr ℚ} {c : ℚ} : e.constant? = some c ↔ e = .const c := by
  cases e <;> simp [Expr.constant?]

theorem isConst_iff {e : Expr ℚ} : e.isConst = true ↔ ∃ c, e = .const c := by
  cases e <;> simp [Expr.isConst, Expr.constant?]

section Scalars
variable [ExactScalar]

theorem hasValue_sumOf {ts : List (Expr ℚ)} {x : ℚ} (h : SumsTo ρ ts x) :
    HasValue ρ (.sumOf ts) x :=
  hasValue_sum_iff.mpr (h.perm (descending_perm ts).symm)

theorem hasValue_productOf {fs : List (Expr ℚ)} {x : ℚ} (h : MultipliesTo ρ fs x) :
    HasValue ρ (.productOf fs) x :=
  hasValue_product_iff.mpr (h.perm (ascending_perm fs).symm)

theorem HasValue.downgrade {e : Expr ℚ} {x : ℚ} (h : HasValue ρ e x) :
    HasValue ρ e.downgrade x := by
  unfold Expr.downgrade
  split
  · have hx := (hasValue_sum_iff.mp h).sum_eq
    rw [← hx, ExactScalar.zero_eq]
    exact .const ρ 0
  · exact SumsTo.singleton_iff.mp (hasValue_sum_iff.mp h)
  · have hx := (hasValue_product_iff.mp h).prod_eq
    rw [← hx, ExactScalar.one_eq]
    exact .const ρ 1
  · exact MultipliesTo.singleton_iff.mp (hasValue_product_iff.mp h)
  · exact h

/-! ### Constants -/

theorem isZero_iff {e : Expr ℚ} : e.isZero = true ↔ e = .const 0 := by
  cases e <;> simp [Expr.isZero, Expr.isConstant, Expr.constant?]

theorem isOne_iff {e : Expr ℚ} : e.isOne = true ↔ e = .const 1 := by
  cases e <;> simp [Expr.isOne, Expr.isConstant, Expr.constant?]

@[simp] theorem scalar_sum_eq (xs : List ℚ) : Scalar.sum xs = xs.sum := by
  have hadd : (Scalar.add : ℚ → ℚ → ℚ) = (· + ·) := funext₂ ExactScalar.add_eq
  rw [Scalar.sum, hadd, ExactScalar.negZero_eq, List.sum_eq_foldl]

@[simp] theorem scalar_product_eq (xs : List ℚ) : Scalar.product xs = xs.prod := by
  have hmul : (Scalar.mul : ℚ → ℚ → ℚ) = (· * ·) := funext₂ ExactScalar.mul_eq
  rw [Scalar.product, hmul, ExactScalar.one_eq, List.prod_eq_foldl]

/-! ### Equality -/

@[simp] theorem same_iff {x y : ℚ} : Scalar.same x y = true ↔ x = y := by
  simp [Scalar.same, Scalar.isNaN]

mutual

/-- **Structurally equal expressions are the same** when constants are read exactly. -/
theorem eq_of_beq : ∀ {a b : Expr ℚ}, Expr.beq a b = true → a = b
  | .const x, b, h => by cases b <;> simp_all [Expr.beq]
  | .var x, b, h => by cases b <;> simp_all [Expr.beq]
  | .unary f a, b, h => by
    cases b with
    | unary g b =>
      simp only [Expr.beq, Bool.and_eq_true, beq_iff_eq] at h
      rw [h.1, eq_of_beq h.2]
    | _ => simp [Expr.beq] at h
  | .binary f a₁ a₂, b, h => by
    cases b with
    | binary g b₁ b₂ =>
      simp only [Expr.beq, Bool.and_eq_true, beq_iff_eq] at h
      rw [h.1.1, eq_of_beq h.1.2, eq_of_beq h.2]
    | _ => simp [Expr.beq] at h
  | .nary f as, b, h => by
    cases b with
    | nary g bs =>
      simp only [Expr.beq, Bool.and_eq_true, beq_iff_eq] at h
      rw [h.1, eq_of_beqList h.2]
    | _ => simp [Expr.beq] at h

theorem eq_of_beqList : ∀ {as bs : List (Expr ℚ)}, Expr.beqList as bs = true → as = bs
  | [], bs, h => by cases bs <;> simp_all [Expr.beqList]
  | a :: as, bs, h => by
    cases bs with
    | nil => simp [Expr.beqList] at h
    | cons b bs =>
      simp only [Expr.beqList, Bool.and_eq_true] at h
      rw [eq_of_beq h.1, eq_of_beqList h.2]

end

end Scalars

/-! ### Tasks and solvers -/

/-- The value of a task. -/
def Task.HasValue (ρ : Char → ℚ) : Task ℚ → ℚ → Prop
  | .step e => SymbolicAlgebra.HasValue ρ e
  | .sum ts => SumsTo ρ ts
  | .product fs => MultipliesTo ρ fs

/-- **A solver that keeps the values of tasks** at `ρ`. It does arithmetic on constants, so that a
whole exponent is still a constant after it has been added up or multiplied. -/
structure Exact (ρ : Char → ℚ) (solve : Solver ℚ) : Prop where
  value (task : Task ℚ) {x : ℚ} {r : Expr ℚ} :
    task.HasValue ρ x → solve task = some r → HasValue ρ r x
  step_const {c : ℚ} {r : Expr ℚ} : solve (.step (.const c)) = some r → r = .const c
  mul_consts {a b : ℚ} {r : Expr ℚ} :
    solve (.product [.const a, .const b]) = some r → r = .const (a * b)
  sum_consts {cs : List ℚ} {r : Expr ℚ} :
    solve (.sum (cs.map .const)) = some r → r = .const cs.sum

namespace Exact

variable {solve : Solver ℚ} (hs : Exact ρ solve)
include hs

theorem step {e r : Expr ℚ} {x : ℚ} (he : HasValue ρ e x) (h : solve (.step e) = some r) :
    HasValue ρ r x := hs.value (.step e) he h

theorem sum {ts : List (Expr ℚ)} {r : Expr ℚ} {x : ℚ} (hts : SumsTo ρ ts x)
    (h : solve (.sum ts) = some r) : HasValue ρ r x := hs.value (.sum ts) hts h

theorem product {fs : List (Expr ℚ)} {r : Expr ℚ} {x : ℚ} (hfs : MultipliesTo ρ fs x)
    (h : solve (.product fs) = some r) : HasValue ρ r x := hs.value (.product fs) hfs h

theorem steps_sum : ∀ {ts us : List (Expr ℚ)} {x : ℚ}, SumsTo ρ ts x →
    solve.steps ts = some us → SumsTo ρ us x
  | [], us, x, hts, h => by
    simp only [Solver.steps, Option.some.injEq] at h
    rwa [← h]
  | t :: ts, us, x, hts, h => by
    simp only [Solver.steps, Option.bind_eq_bind, Option.bind_eq_some_iff, Option.some.injEq] at h
    obtain ⟨u, hu, us', hus, rfl⟩ := h
    obtain ⟨a, b, ht, hts', rfl⟩ := SumsTo.cons_iff.mp hts
    exact .cons (hs.step ht hu) (steps_sum hts' hus)

theorem steps_product : ∀ {fs gs : List (Expr ℚ)} {x : ℚ}, MultipliesTo ρ fs x →
    solve.steps fs = some gs → MultipliesTo ρ gs x
  | [], gs, x, hfs, h => by
    simp only [Solver.steps, Option.some.injEq] at h
    rwa [← h]
  | f :: fs, gs, x, hfs, h => by
    simp only [Solver.steps, Option.bind_eq_bind, Option.bind_eq_some_iff, Option.some.injEq] at h
    obtain ⟨g, hg, gs', hgs, rfl⟩ := h
    obtain ⟨a, b, hf, hfs', rfl⟩ := MultipliesTo.cons_iff.mp hfs
    exact .cons (hs.step hf hg) (steps_product hfs' hgs)

end Exact

end SymbolicAlgebra
