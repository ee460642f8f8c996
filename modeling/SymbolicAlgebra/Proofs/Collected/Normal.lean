import SymbolicAlgebra.Proofs.Collected.Factors
import SymbolicAlgebra.Proofs.Double.Units

/-! # Collected normal form

In a fixed expression nothing is left to flatten or to collect. The terms of a fixed sum are added
to the same sum, and the factors of a fixed product are multiplied to the same product; so the bulk
stays and so does the number of terms or factors. Flattening a sum, dropping a zero and distributing
a factor lose bulk, and merging two terms or factors leaves fewer of them. -/

theorem List.Forall₂.pairwise {β γ : Type} {R : β → γ → Prop} {P : β → β → Prop}
    {Q : γ → γ → Prop} {xs : List β} {ys : List γ} (h : List.Forall₂ R xs ys)
    (hxs : xs.Pairwise P)
    (hPQ : ∀ {x x' y y'}, R x y → R x' y' → P x x' → Q y y') : ys.Pairwise Q := by
  induction h with
  | nil => exact .nil
  | cons hxy hrest ih =>
    obtain ⟨hx, hxs⟩ := List.pairwise_cons.mp hxs
    refine .cons (fun y' hy' => ?_) (ih hxs)
    obtain ⟨x', hx', hxy'⟩ := hrest.exists_left y' hy'
    exact hPQ hxy hxy' (hx x' hx')

namespace SymbolicAlgebra

open SymbolicAlgebra.Expr (Same Fixed TameBelow Within Simple bulk)
open SymbolicAlgebra.Simplify (nonConstants splitCoefficient isBelow)

variable {α : Type} [Scalar α]

namespace Expr

/-- The base of a factor. A factor that is no power is its own base. -/
def base : Expr α → Expr α
  | power b _ => b
  | e => e

/-- **Terms in collected normal form**: in descending order, with no sums and no zeros, at most one
constant, and no two terms that differ in a leading constant only. -/
structure CollectedTerms (ts : List (Expr α)) : Prop where
  sorted : ts.Pairwise fun t u => mayPrecede .sum t u = true
  not_sum : ∀ t ∈ ts, t.isSum = false
  nonzero : ∀ t ∈ ts, t.isZero = false
  constants : (ts.filter isConst).length ≤ 1
  unlike : (nonConstants ts).Pairwise fun t u =>
    beqList (splitCoefficient t).2 (splitCoefficient u).2 = false

/-- **Factors in collected normal form**: in ascending order, with no products, fractions, zeros and
ones, at most one constant, no two factors of the same base, and none that belongs below the
line. -/
structure CollectedFactors (fs : List (Expr α)) : Prop where
  sorted : fs.Pairwise fun f g => mayPrecede .product f g = true
  not_compound : ∀ f ∈ fs, f.isCompound = false
  nonzero : ∀ f ∈ fs, f.isZero = false
  not_one : ∀ f ∈ fs, f.isOne = false
  constants : (fs.filter isConst).length ≤ 1
  bases : (nonConstants fs).Pairwise fun f g => (f.base == g.base) = false
  above : ∀ f ∈ fs, isBelow f = false

theorem mayPrecede_same [OrderedScalar α] {f : Nary} {a a' b b' : Expr α} (ha : Same a a')
    (hb : Same b b') (h : mayPrecede f a b = true) : mayPrecede f a' b' = true := by
  rw [← h]
  cases f <;> simp only [mayPrecede, Same.compare_congr ha hb, Same.compare_congr hb ha]

theorem beq_symm [OrderedScalar α] {a b : Expr α} (h : (a == b) = false) : (b == a) = false :=
  Bool.eq_false_iff.mpr fun hsame => Bool.eq_false_iff.mp h (Same.symm hsame)

theorem beqList_symm [OrderedScalar α] {as bs : List (Expr α)} (h : beqList as bs = false) :
    beqList bs as = false := by
  refine Bool.eq_false_iff.mpr fun hsame => Bool.eq_false_iff.mp h (beqList_iff.mpr ?_)
  exact (beqList_iff.mp hsame).flip.imp fun _ _ => Same.symm

end Expr

/-! ### Sums -/

namespace Simplify

/-- The sum of terms is a constant, one of the terms, or the result of adding those that are not
zero. -/
theorem addTerms_cases {solve : Solver α} {ts : List (Expr α)} {r : Expr α}
    (h : addTerms solve ts = some r) : r.isConst = true ∨ r ∈ ts ∨
      addNonzero solve (ts.filter fun t => !t.isZero) = some r := by
  unfold addTerms at h
  split at h
  · rw [← Option.some.inj h]
    exact .inr (.inl List.mem_cons_self)
  · have hmem : ∀ t ∈ ts.filter fun t => !t.isZero, t ∈ ts := fun t => List.mem_of_mem_filter
    split at h
    · rw [← Option.some.inj h]
      exact .inl rfl
    · next t hone =>
      rw [← Option.some.inj h]
      exact .inr (.inl (hmem t (hone ▸ List.mem_cons_self)))
    · rw [← Option.some.inj h]
      exact .inl rfl
    · exact .inr (.inr h)

theorem constantTerm_of_none [StandardScalar α] {es : List (Expr α)}
    (h : es.filter Expr.isConst = []) : constantTerm es = [] := by
  have hnone : constantsOf es = [] := by
    rw [filter_isConst_eq] at h
    exact List.map_eq_nil_iff.mp h
  simp only [constantTerm, hnone]
  exact if_pos StandardScalar.negZero_eq_zero

theorem coefficient_of_none [StandardScalar α] {es : List (Expr α)}
    (h : es.filter Expr.isConst = []) : coefficient es = [] := by
  have hnone : constantsOf es = [] := by
    rw [filter_isConst_eq] at h
    exact List.map_eq_nil_iff.mp h
  simp only [coefficient, hnone]
  exact if_pos StandardScalar.one_eq_one

omit [Scalar α] in
/-- Constants and others make up a list. -/
theorem length_filter_isConst (es : List (Expr α)) :
    (es.filter Expr.isConst).length + (nonConstants es).length = es.length := by
  rw [← List.length_append]
  exact (List.filter_append_perm Expr.isConst es).length_eq

end Simplify

namespace Expr

theorem downgrade_sum_cases (ts : List (Expr α)) :
    (sum ts).downgrade.isConst = true ∨ (∃ t, ts = [t] ∧ (sum ts).downgrade = t) ∨
      (sum ts).downgrade = sum ts := by
  match ts with
  | [] => exact .inl rfl
  | [t] => exact .inr (.inl ⟨t, rfl, rfl⟩)
  | t :: u :: ts => exact .inr (.inr rfl)

namespace Fixed

variable [StandardScalar α]

theorem within_of_mem {e : Expr α} (h : e.Fixed) : ∀ a ∈ e.children, Within e.size e.size a :=
  fun _ ha => (h.child ha).within (tameBelow e.size) (size_lt_of_mem_children ha)

/-- **The terms of a fixed sum** are added to the same terms. -/
theorem readds {ts : List (Expr α)} (h : (sum ts).Fixed) :
    ∃ flat stepped, flat = Simplify.termsOfList (ascending (ts.filter fun t => !t.isZero)) ∧
      List.Forall₂ Same (descending stepped) ts ∧ (ts.map bulk).sum ≤ (flat.map bulk).sum ∧
        ts.length = (Simplify.constantTerm flat).length +
          (Simplify.LikeTerms.collect (nonConstants flat)).length := by
  obtain ⟨depth, r, hr, hsame⟩ := h.sum_solved
  have hwithin : ∀ t ∈ ts, Within _ _ t := h.within_of_mem
  rcases Simplify.addTerms_cases hr with hconst | hmem | hnonzero
  · rw [hsame.isConst_eq] at hconst
    cases hconst
  · exact absurd hsame (Same.not_of_size (size_lt_of_mem_children (e := sum ts) hmem))
  · obtain ⟨stepped, rfl, -, hle, hlength⟩ := Simplify.addNonzero_stepped
      (Simplify.bounded_solve (tameBelow _) depth)
      (fun t ht => hwithin t (List.mem_of_mem_filter ht)) hnonzero
    have hperm : (descending stepped).Perm stepped := arrange_perm .sum stepped
    have hflat := (Simplify.sum_bulk_termsOfList (ascending (ts.filter fun t => !t.isZero))).trans
      (Simplify.sum_bulk_perm (arrange_perm .product _)).le
    have hdropped := Simplify.sum_bulk_filter isZero ts
    rcases downgrade_sum_cases (descending stepped) with hconst | ⟨t, ht, hdown⟩ | hdown
    · rw [sumOf] at hsame
      rw [hsame.isConst_eq] at hconst
      cases hconst
    · -- a single term is less bulky than the sum
      rw [sumOf, hdown] at hsame
      have hbulk := hsame.bulk_eq
      rw [← Simplify.sum_bulk_perm hperm, ht, List.map_singleton, List.sum_singleton] at hle
      rw [bulk_sum] at hbulk
      omega
    · rw [sumOf, hdown] at hsame
      cases hsame.node with
      | nary _ hsame =>
        refine ⟨_, stepped, rfl, hsame, ?_, ?_⟩
        · rw [← Simplify.sum_bulk_same hsame, Simplify.sum_bulk_perm hperm]
          exact hle
        · rw [← hsame.length_eq, hperm.length_eq, hlength]

/-- **The terms of a fixed sum are collected.** -/
theorem collectedTerms {ts : List (Expr α)} (h : (sum ts).Fixed) : CollectedTerms ts := by
  obtain ⟨_, stepped, rfl, hsame, hle, hlength⟩ := h.readds
  have hsorted : ts.Pairwise fun t u => mayPrecede .sum t u = true :=
    hsame.pairwise (arrange_pairwise .sum stepped) mayPrecede_same
  have hflat := (Simplify.sum_bulk_termsOfList (ascending (ts.filter fun t => !t.isZero))).trans
    (Simplify.sum_bulk_perm (arrange_perm .product _)).le
  have hdropped := Simplify.sum_bulk_filter isZero ts
  have hnonzero : ∀ t ∈ ts, t.isZero = false := by
    intro t ht
    refine Bool.eq_false_iff.mpr fun hzero => ?_
    have hpos := bulk_pos t
    have hmem : t.bulk ≤ ((ts.filter isZero).map bulk).sum :=
      List.single_le_sum (by simp) _ (List.mem_map_of_mem (List.mem_filter.mpr ⟨ht, hzero⟩))
    omega
  have hall : (ts.filter fun t => !t.isZero) = ts :=
    List.filter_eq_self.mpr fun t ht => by simp [hnonzero t ht]
  rw [hall] at hle hlength
  have hperm : (ascending ts).Perm ts := arrange_perm .product ts
  have hnotSum : ∀ t ∈ ts, t.isSum = false := by
    intro t ht
    refine Bool.eq_false_iff.mpr fun hsum => ?_
    have hlt := Simplify.sum_bulk_termsOfList_lt (hperm.mem_iff.mpr ht) hsum
    rw [Simplify.sum_bulk_perm hperm] at hlt
    omega
  rw [Simplify.termsOfList_of_not_isSum fun t ht => hnotSum t (hperm.mem_iff.mp ht)] at hlength
  -- as many terms and groups, and a constant term only for constants
  have hcount := Simplify.length_filter_isConst (ascending ts)
  rw [hperm.length_eq] at hcount
  obtain ⟨hgroups, hpairs⟩ := Simplify.LikeTerms.length_collect (nonConstants (ascending ts))
  have hconstants : (Simplify.constantTerm (ascending ts)).length ≤ 1 ∧
      (Simplify.constantTerm (ascending ts)).length ≤ ((ascending ts).filter isConst).length := by
    rcases hnone : (ascending ts).filter isConst with _ | ⟨c, cs⟩
    · rw [Simplify.constantTerm_of_none hnone]
      exact ⟨Nat.zero_le _, Nat.zero_le _⟩
    · rcases Simplify.length_constantTerm_le (ascending ts) with hnil | ⟨c, hc⟩
      · simp [hnil]
      · simp [hc]
  exact
    { sorted := hsorted
      not_sum := hnotSum
      nonzero := hnonzero
      constants := by
        rw [← (hperm.filter isConst).length_eq]
        omega
      unlike := (hperm.filter _).pairwise (hpairs (by omega)) beqList_symm }

end Fixed

end Expr

/-! ### Products -/

namespace Simplify

variable {depth : Nat}

/-- **Fixed factors become powers of their bases**, with nothing left over. -/
theorem asPowers_bases : ∀ es ps : List (Expr α), (∀ e ∈ es, e.Fixed) →
    asPowers (solve depth) es = some ps →
      List.Forall₂ (fun p e => Same p.1 e.base) (ps.filterMap power?) es ∧
        (ps.filter fun p => (power? p).isNone) = [] := by
  refine asPowers.induct _ ?nil ?power ?other
  case nil =>
    intro ps _ h
    rw [asPowers, Option.some.injEq] at h
    rw [← h]
    exact ⟨.nil, rfl⟩
  case power =>
    intro b x es ih ps hes h
    simp only [asPowers, Option.bind_eq_bind, Option.bind_eq_some_iff, Option.some.injEq] at h
    obtain ⟨p, hp, rest, hrest, rfl⟩ := h
    obtain ⟨he, hes⟩ := List.forall_mem_cons.mp hes
    obtain ⟨hbases, hnone⟩ := ih rest hes hrest
    have hsame := he.step hp
    cases hsame.node with
    | binary _ hb _ => exact ⟨.cons hb hbases, hnone⟩
  case other =>
    intro e es he ih ps hes h
    rw [asPowers.eq_3 _ e es he] at h
    simp only [Option.bind_eq_bind, Option.bind_eq_some_iff, Option.some.injEq] at h
    obtain ⟨b, hb, rest, hrest, rfl⟩ := h
    obtain ⟨hfixed, hes⟩ := List.forall_mem_cons.mp hes
    obtain ⟨hbases, hnone⟩ := ih rest hes hrest
    have hbase : e.base = e := by
      unfold Expr.base
      split
      · exact absurd rfl (he _ _)
      · rfl
    exact ⟨.cons (hbase.symm ▸ hfixed.step hb) hbases, hnone⟩

end Simplify

namespace Expr

variable [StandardScalar α]

/-- **The factors of a fixed product are collected.** -/
theorem Fixed.collectedFactors {fs : List (Expr α)} (h : (product fs).Fixed) :
    CollectedFactors fs := by
  have hn := tameBelow (α := α) (product fs).size
  obtain ⟨depth, flat, pieces, powers, stepped, hr⟩ := h.recollects hn (Nat.le_refl _)
  have hsame := hr.same hn h (Nat.le_refl _)
  have hcompound := h.factor_not_compound hn (Nat.le_refl _)
  have hflat : flat = ascending (fs.filter fun f => !f.isOne) := by
    obtain ⟨es, hes, rfl⟩ := hr.collects.expanded
    have hnonones : ∀ f ∈ ascending (fs.filter fun f => !f.isOne), f.isCompound = false :=
      fun f hf => hcompound f (mem_sorted_nonones hf).1
    rw [Simplify.expandFractions_of_not_compound hnonones, Option.some.injEq] at hes
    rw [← hes, Simplify.factorsOfList_of_not_compound hnonones]
  obtain ⟨hbases, hleft⟩ := Simplify.asPowers_bases _ pieces (fun e he => by
    have hmem := List.mem_of_mem_filter he
    rw [hflat] at hmem
    exact h.child (mem_sorted_nonones hmem).1) hr.collects.asPowers
  -- as many factors and groups, and a coefficient only for constants
  obtain ⟨-, hpairs⟩ := Simplify.LikeBases.length_collect (pieces.filterMap Simplify.power?)
  have hcount := Simplify.length_filter_isConst flat
  have hones : flat.length + (fs.filter isOne).length = fs.length := by
    have hsorted : (ascending (fs.filter fun f => !f.isOne)).Perm (fs.filter fun f => !f.isOne) :=
      arrange_perm .product _
    rw [hflat, hsorted.length_eq, ← List.length_append]
    exact (List.perm_append_comm.trans (List.filter_append_perm isOne fs)).length_eq
  have hstepped : (ascending stepped).Perm stepped := arrange_perm .product stepped
  have hlength := hr.collects.stepped_shrink.length_eq
  rw [hleft, List.append_nil, List.length_append, hr.collects.powers_length,
    ← hstepped.length_eq, hsame.length_eq] at hlength
  have hgroups := (Simplify.LikeBases.length_collect (pieces.filterMap Simplify.power?)).1
  rw [hbases.length_eq] at hgroups
  have hconstants : (Simplify.coefficient flat).length ≤ 1 ∧
      (Simplify.coefficient flat).length ≤ (flat.filter isConst).length := by
    rcases hnone : flat.filter isConst with _ | ⟨c, cs⟩
    · rw [Simplify.coefficient_of_none hnone]
      exact ⟨Nat.zero_le _, Nat.zero_le _⟩
    · rcases Simplify.length_coefficient_le flat with hnil | ⟨c, hc⟩
      · simp [hnil]
      · simp [hc]
  have hnoOne : ∀ f ∈ fs, f.isOne = false := by
    have hnil : fs.filter isOne = [] := List.length_eq_zero_iff.mp (by omega)
    exact fun f hf => Bool.eq_false_iff.mpr (List.filter_eq_nil_iff.mp hnil f hf)
  have hall : (fs.filter fun f => !f.isOne) = fs :=
    List.filter_eq_self.mpr fun f hf => by simp [hnoOne f hf]
  have hperm : flat.Perm fs := by
    rw [hflat, hall]
    exact arrange_perm .product fs
  exact
    { sorted := hsame.pairwise (arrange_pairwise .product stepped) mayPrecede_same
      not_compound := hcompound
      nonzero := hr.nonzero
      not_one := hnoOne
      constants := by
        rw [← (hperm.filter isConst).length_eq]
        omega
      bases := by
        have hdistinct : (nonConstants flat).Pairwise fun f g => (f.base == g.base) = false := by
          refine hbases.pairwise (hpairs (by rw [hbases.length_eq]; omega)) ?_
          intro p f q g hp hq hpq
          refine Bool.eq_false_iff.mpr fun heq => Bool.eq_false_iff.mp hpq ?_
          exact (hp.trans heq).trans hq.symm
        exact (hperm.filter _).pairwise hdistinct beq_symm
      above := fun f hf => by
        obtain ⟨s, hs, hsame⟩ := hsame.exists_left f hf
        rw [← Simplify.isBelow_eq hsame]
        exact hr.above s (StableSort.mem_sort.mp hs) }

end Expr

/-! ### Doubles -/

open Double (Platform)

/-- Doubles are standard, if the platform does not change one when it is raised to a power. -/
theorem Double.Platform.Congruent.standardScalar {p : Platform} (hp : p.Congruent)
    (hpow : ∀ x, Scalar.Same (p.pow 1 x) 1) : StandardScalar p.Number where
  toCongruentScalar := hp.congruentScalar
  one_eq_one := (Platform.number_eq p _ _).trans Double.one_eq_one
  one_eq_zero := (Platform.number_eq p _ _).trans Double.one_ne_zero
  one_lt_thousand := (Platform.number_lt p _ _).trans Double.one_lt_thousand
  isIntegral_one := (Platform.number_isIntegral p _).trans Double.isIntegral_one
  negZero_eq_zero := (Platform.number_eq p _ _).trans Double.negZero_eq_zero
  negZero_add_one := Double.zero_add_same Double.negZero_eq_zero _
  one_mul_one := Double.one_mul_same Double.one_eq_one _
  one_div_one := Double.div_self_same (.refl _) Double.isFinite_one Double.one_ne_zero
  one_pow := hpow

/-- **Fixed expressions are in collected normal form**: in an expression of which no step changes
any subexpression, the terms of every sum and the factors of every product are collected. -/
theorem fixed_expressions_collected (p : Platform) (hp : p.Congruent)
    (hpow : ∀ x, Scalar.Same (p.pow 1 x) 1) (e : Expr p.Number) (h : e.Fixed) :
    (∀ ts, Expr.Occurs (.sum ts) e → Expr.CollectedTerms ts) ∧
      ∀ fs, Expr.Occurs (.product fs) e → Expr.CollectedFactors fs := by
  have := hp.standardScalar hpow
  exact ⟨fun ts hts => (h.of_occurs hts).collectedTerms,
    fun fs hfs => (h.of_occurs hfs).collectedFactors⟩

namespace Double.Platform

/-- A platform whose functions are known at few numbers, and whose powers of one are one. -/
def unital : Platform := { sparse with pow := fun x y => if x == 1 then 1 else sparse.pow x y }

theorem unital_congruent : unital.Congruent where
  floor := sparse_congruent.floor
  ceil := sparse_congruent.ceil
  pow_left s s' y := by
    have hone (s : Float.Model.UnpackedFloat.Sign) : (signedZero s == 1) = false := by
      cases s <;> rfl
    simp only [unital, hone, Bool.false_eq_true, if_false]
    exact sparse_congruent.pow_left s s' y
  pow_right s s' x := by
    simp only [unital]
    split_ifs
    · exact .inl (.refl _)
    · exact sparse_congruent.pow_right s s' x
  sin := sparse_congruent.sin
  cos := sparse_congruent.cos
  tan := sparse_congruent.tan
  arcsin := sparse_congruent.arcsin
  arccos := sparse_congruent.arccos
  arctan := sparse_congruent.arctan

theorem unital_pow_one (x : Float) : Scalar.Same (unital.pow 1 x) 1 := by
  have hone : ((1 : Float) == 1) = true := rfl
  simp only [unital, hone, if_true]
  exact .refl _

end Double.Platform

/-- Twice a variable and three: the sum and the product in it are collected. -/
theorem fixed_expressions_collected_line :
    let fs : List (Expr Platform.unital.Number) := [.const (2 : Float), .var 'x']
    let ts : List (Expr Platform.unital.Number) := [.product fs, .const (3 : Float)]
    (Expr.sum ts).Fixed ∧ Expr.CollectedTerms ts ∧ Expr.CollectedFactors fs := by
  intro fs ts
  have hvar : (Expr.var 'x' : Expr Platform.unital.Number).Fixed :=
    .of_children (by decide +kernel) (by simp [Expr.children])
  have := Platform.unital_congruent.congruentScalar
  have hconst (c : Platform.unital.Number) : (Expr.const c).Fixed := .const c
  have hfs : (Expr.product fs).Fixed :=
    .of_children (by decide +kernel) (List.forall_mem_cons.mpr
      ⟨hconst (2 : Float), List.forall_mem_singleton.mpr hvar⟩)
  have hts : (Expr.sum ts).Fixed :=
    .of_children (by decide +kernel) (List.forall_mem_cons.mpr
      ⟨hfs, List.forall_mem_singleton.mpr (hconst (3 : Float))⟩)
  obtain ⟨hterms, hfactors⟩ := fixed_expressions_collected _ Platform.unital_congruent
    Platform.unital_pow_one _ hts
  exact ⟨hts, hterms ts (.self _), hfactors fs (.inside List.mem_cons_self (.self _))⟩

end SymbolicAlgebra
