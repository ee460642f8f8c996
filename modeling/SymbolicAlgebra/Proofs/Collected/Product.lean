import Mathlib.Data.List.MinMax
import SymbolicAlgebra.Proofs.Collected.Sum
import SymbolicAlgebra.Proofs.Reading.Product

/-! # Products shrink

The product of tame factors is tame and no bulkier than they are together (`multiplyFactors_shrinks`).
Taking fractions apart, flattening and putting fractions together again keep the bulk. Distributing
over a sum of two terms loses some of it. Collecting powers of like bases gives a power that is no
bulkier than one of them (`LikeBases.power_sum_shrinks`), so where each of them counts, collecting two
or more of them loses bulk (`LikeBases.toPowers_lt`). -/

namespace SymbolicAlgebra.Simplify

open SymbolicAlgebra.Expr (Same TameBelow Within bulk)

variable {α : Type} [Scalar α]

/-! ### Lists -/

theorem prod_bulk_perm {es es' : List (Expr α)} (h : es.Perm es') :
    (es.map bulk).prod = (es'.map bulk).prod :=
  (h.map bulk).prod_eq

theorem prod_bulk_filter (p : Expr α → Bool) (es : List (Expr α)) :
    (es.map bulk).prod =
      ((es.filter p).map bulk).prod * ((es.filter fun e => !p e).map bulk).prod := by
  rw [← prod_bulk_perm (List.filter_append_perm p es), List.map_append, List.prod_append]

theorem bulk_le_prod {e : Expr α} {es : List (Expr α)} (h : e ∈ es) :
    e.bulk ≤ (es.map bulk).prod :=
  Nat.le_of_dvd (Expr.prod_bulk_pos es) (List.dvd_prod (List.mem_map_of_mem h))

/-! ### Flattening and distribution -/

mutual

theorem factorsOf_within {n a : Nat} : ∀ {e : Expr α}, Within n a e →
    ∀ f ∈ factorsOf e, Within n a f
  | .nary .product _, h => by
    rw [factorsOf]
    exact factorsOfList_within (Within.product_iff.mp h)
  | .nary .sum _, h | .nary .min _, h | .nary .max _, h => List.forall_mem_singleton.mpr h
  | .const _, h | .var _, h | .unary _ _, h | .binary _ _ _, h => List.forall_mem_singleton.mpr h

theorem factorsOfList_within {n a : Nat} : ∀ {fs : List (Expr α)}, (∀ f ∈ fs, Within n a f) →
    ∀ f ∈ factorsOfList fs, Within n a f
  | [], h => h
  | _ :: _, h => by
    obtain ⟨hf, hfs⟩ := List.forall_mem_cons.mp h
    rw [factorsOfList]
    exact List.forall_mem_append.mpr ⟨factorsOf_within hf, factorsOfList_within hfs⟩

end

mutual

theorem prod_bulk_factorsOf : ∀ e : Expr α, ((factorsOf e).map bulk).prod = e.bulk
  | .nary .product fs => by
    rw [factorsOf, Expr.bulk_product]
    exact prod_bulk_factorsOfList fs
  | .nary .sum _ | .nary .min _ | .nary .max _ => Nat.mul_one _
  | .const _ | .var _ | .unary _ _ | .binary _ _ _ => Nat.mul_one _

/-- **Flattening keeps the bulk** of a list of factors. -/
theorem prod_bulk_factorsOfList : ∀ fs : List (Expr α),
    ((factorsOfList fs).map bulk).prod = (fs.map bulk).prod
  | [] => rfl
  | f :: fs => by
    rw [factorsOfList, List.map_append, List.prod_append, prod_bulk_factorsOf f,
      prod_bulk_factorsOfList fs, List.map_cons, List.prod_cons]

end

/-- **Distribution loses twice the bulk** of the factor that is distributed. -/
theorem distribute?_bulk {fs ts : List (Expr α)} (h : distribute? fs = some ts) :
    ∃ f ∈ fs, (ts.map bulk).sum + 2 * f.bulk = (fs.map bulk).prod := by
  have hproduct (es : List (Expr α)) : (Expr.productOf es).bulk = (es.map bulk).prod := by
    rw [Expr.productOf, Expr.bulk_product]
    exact prod_bulk_perm (StableSort.sort_perm _ es)
  unfold distribute? at h
  split at h
  · next other first second =>
    split_ifs at h
    rw [← Option.some.inj h]
    refine ⟨other, List.mem_cons_self, ?_⟩
    simp only [List.map_cons, List.map_nil, List.sum_cons, List.sum_nil, List.prod_cons,
      List.prod_nil, hproduct, Expr.bulk_sum]
    ring
  · cases h

/-- Only over a sum is anything distributed. -/
theorem isSum_of_distribute? {fs ts : List (Expr α)} (h : distribute? fs = some ts) :
    ∃ f ∈ fs, f.isSum = true := by
  unfold distribute? at h
  split at h
  · exact ⟨_, List.mem_cons_of_mem _ List.mem_cons_self, rfl⟩
  · cases h

theorem distribute?_within {n a : Nat} {fs ts : List (Expr α)} (hfs : ∀ f ∈ fs, Within n a f)
    (h : distribute? fs = some ts) : ∀ t ∈ ts, Within n a t := by
  have hproduct {e e' : Expr α} (he : Within n a e) (he' : Within n a e') :
      Within n a (Expr.productOf [e, e']) :=
    Within.product_iff.mpr fun f hf => by
      rcases List.mem_cons.mp (StableSort.mem_sort.mp hf) with rfl | hf
      · exact he
      · obtain rfl := List.mem_singleton.mp hf
        exact he'
  unfold distribute? at h
  split at h
  · next other first second =>
    split_ifs at h
    obtain ⟨hother, hsum⟩ := List.forall_mem_cons.mp hfs
    have hterms := Within.sum_iff.mp (List.forall_mem_singleton.mp hsum)
    rw [← Option.some.inj h]
    exact List.forall_mem_cons.mpr ⟨hproduct hother (hterms first (by simp)),
      List.forall_mem_singleton.mpr (hproduct hother (hterms second (by simp)))⟩
  · cases h

/-! ### Exponents -/

section Solve

variable {n a : Nat} {solve : Solver α} (hs : Bounded n solve)
include hs

/-- A power whose exponent is negated. -/
theorem negateExponent_shrinks {b e negated : Expr α} (h : Within n a (.power b e))
    (hnegated : negateExponent solve e = some negated) :
    Within n a (.power b negated) ∧ (Expr.power b negated).bulk ≤ (Expr.power b e).bulk := by
  obtain ⟨hwithin, hconst, hdegree⟩ := hs.product_degree (.const Scalar.negOne) h.exponent hnegated
  refine ⟨h.with_exponent hwithin (hconst rfl), ?_⟩
  rw [Expr.degree_eq_zero (e := .const Scalar.negOne) rfl, Nat.zero_add] at hdegree
  rw [Expr.bulk_power, Expr.bulk_power]
  exact Nat.mul_le_mul_left _ (Nat.pow_le_pow_right (by omega) hdegree)

theorem reciprocal_shrinks :
    (∀ (e : Expr α) (fs : List (Expr α)), Within n a e → reciprocal solve e = some fs →
      (∀ f ∈ fs, Within n a f) ∧ (fs.map bulk).prod ≤ e.bulk) ∧
    ∀ (es fs : List (Expr α)), (∀ e ∈ es, Within n a e) → reciprocals solve es = some fs →
      (∀ f ∈ fs, Within n a f) ∧ (fs.map bulk).prod ≤ (es.map bulk).prod := by
  refine reciprocal.mutual_induct _ _ ?power ?product ?other ?nil ?cons
  case power =>
    intro b e fs he h
    simp only [reciprocal, Option.bind_eq_bind, Option.bind_eq_some_iff, Option.some.injEq] at h
    obtain ⟨negated, hnegated, rfl⟩ := h
    obtain ⟨hwithin, hle⟩ := negateExponent_shrinks hs he hnegated
    rw [List.map_singleton, List.prod_singleton]
    exact ⟨List.forall_mem_singleton.mpr hwithin, hle⟩
  case product =>
    intro es ih fs he h
    rw [Expr.bulk_product]
    exact ih fs (Within.product_iff.mp he) (by rwa [reciprocal] at h)
  case other =>
    intro e hpower hproduct fs he h
    rw [reciprocal.eq_3 solve e hpower hproduct, Option.some.injEq] at h
    rw [← h, List.map_singleton, List.prod_singleton, Expr.recip, Expr.bulk_power_const]
    exact ⟨List.forall_mem_singleton.mpr (he.powerConst _), Nat.le_refl _⟩
  case nil =>
    intro fs hes h
    rw [reciprocals, Option.some.injEq] at h
    rw [← h]
    exact ⟨hes, Nat.le_refl _⟩
  case cons =>
    intro e es ihe ihes fs hes h
    simp only [reciprocals, Option.bind_eq_bind, Option.bind_eq_some_iff, Option.some.injEq] at h
    obtain ⟨first, hfirst, rest, hrest, rfl⟩ := h
    obtain ⟨he, hes⟩ := List.forall_mem_cons.mp hes
    obtain ⟨hwithin, hle⟩ := ihe first he hfirst
    obtain ⟨hwithin', hle'⟩ := ihes rest hes hrest
    rw [List.map_append, List.prod_append, List.map_cons, List.prod_cons]
    exact ⟨List.forall_mem_append.mpr ⟨hwithin, hwithin'⟩, Nat.mul_le_mul hle hle'⟩

/-- **Fractions as products** of their numerators and reciprocals. -/
theorem expandFractions_shrinks : ∀ (es fs : List (Expr α)), (∀ e ∈ es, Within n a e) →
    expandFractions solve es = some fs →
      (∀ f ∈ fs, Within n a f) ∧ (fs.map bulk).prod ≤ (es.map bulk).prod := by
  refine expandFractions.induct _ ?nil ?fraction ?other
  case nil =>
    intro fs hes h
    rw [expandFractions, Option.some.injEq] at h
    rw [← h]
    exact ⟨hes, Nat.le_refl _⟩
  case fraction =>
    intro num den es ih fs hes h
    simp only [expandFractions, Option.bind_eq_bind, Option.bind_eq_some_iff,
      Option.some.injEq] at h
    obtain ⟨below, hbelow, rest, hrest, rfl⟩ := h
    obtain ⟨he, hes⟩ := List.forall_mem_cons.mp hes
    obtain ⟨hnum, hden⟩ := Within.fraction_iff.mp he
    obtain ⟨hwithin, hle⟩ := (reciprocal_shrinks hs).1 den below hden hbelow
    obtain ⟨hwithin', hle'⟩ := ih rest hes hrest
    rw [List.map_append, List.prod_append, List.map_cons, List.prod_cons, List.map_cons,
      List.prod_cons, Expr.bulk_fraction]
    exact ⟨List.forall_mem_append.mpr ⟨List.forall_mem_cons.mpr ⟨hnum, hwithin⟩, hwithin'⟩,
      Nat.mul_le_mul (Nat.mul_le_mul_left _ hle) hle'⟩
  case other =>
    intro e es he fs ih hes h
    rw [expandFractions.eq_3 solve e es he] at h
    simp only [Option.bind_eq_bind, Option.bind_eq_some_iff, Option.some.injEq] at h
    obtain ⟨rest, hrest, rfl⟩ := h
    obtain ⟨he, hes⟩ := List.forall_mem_cons.mp hes
    obtain ⟨hwithin, hle⟩ := fs rest hes hrest
    rw [List.map_cons, List.prod_cons, List.map_cons, List.prod_cons]
    exact ⟨List.forall_mem_cons.mpr ⟨he, hwithin⟩, Nat.mul_le_mul_left _ hle⟩

/-- **Factors as powers**, one by one. -/
theorem asPowers_shrinks : ∀ (es ps : List (Expr α)), (∀ e ∈ es, Within n a e) →
    asPowers solve es = some ps → List.Forall₂ (Shrinks n a) es ps := by
  refine asPowers.induct _ ?nil ?power ?other
  case nil =>
    intro ps _ h
    rw [asPowers, Option.some.injEq] at h
    rw [← h]
    exact .nil
  case power =>
    intro b e es ih ps hes h
    simp only [asPowers, Option.bind_eq_bind, Option.bind_eq_some_iff, Option.some.injEq] at h
    obtain ⟨p, hp, rest, hrest, rfl⟩ := h
    obtain ⟨he, hes⟩ := List.forall_mem_cons.mp hes
    exact .cons (hs.step he hp) (ih rest hes hrest)
  case other =>
    intro e es he ih ps hes h
    rw [asPowers.eq_3 solve e es he] at h
    simp only [Option.bind_eq_bind, Option.bind_eq_some_iff, Option.some.injEq] at h
    obtain ⟨b, hb, rest, hrest, rfl⟩ := h
    obtain ⟨he, hes⟩ := List.forall_mem_cons.mp hes
    obtain ⟨hwithin, hle⟩ := hs.step he hb
    refine .cons ⟨hwithin.powerConst _, ?_⟩ (ih rest hes hrest)
    rwa [Expr.bulk_power_const]

end Solve

/-! ### Like bases -/

namespace LikeBases

/-- The bulk of the powers in a group, multiplied. -/
def heft (g : LikeBases α) : Nat := (g.exponents.map fun e => (Expr.power g.base e).bulk).prod

/-- The powers in a group, as powers of the base of the group, are tame. -/
def AllWithin (n a : Nat) (g : LikeBases α) : Prop :=
  ∀ e ∈ g.exponents, Within n a (.power g.base e)

theorem heft_add [OrderedScalar α] (b e : Expr α) : ∀ gs : List (LikeBases α),
    ((add b e gs).map heft).prod = (gs.map heft).prod * (Expr.power b e).bulk
  | [] => by simp [add, heft]
  | g :: gs => by
    unfold add
    split_ifs with hsame
    · have hbulk : (Expr.power g.base e).bulk = (Expr.power b e).bulk :=
        Same.bulk_eq (Same.binary .power hsame (.refl e))
      simp only [List.map_cons, List.prod_cons, heft, List.map_append, List.prod_append,
        List.map_nil, List.prod_nil, hbulk, Nat.mul_one]
      ring
    · simp only [List.map_cons, List.prod_cons, heft_add b e gs]
      ring

theorem add_within [CongruentScalar α] {n a : Nat} {b e : Expr α}
    (h : Within n a (.power b e)) : ∀ {gs : List (LikeBases α)}, (∀ g ∈ gs, AllWithin n a g) →
      ∀ g ∈ add b e gs, AllWithin n a g
  | [], _ => List.forall_mem_singleton.mpr (List.forall_mem_singleton.mpr h)
  | g :: gs, hgs => by
    obtain ⟨hg, hrest⟩ := List.forall_mem_cons.mp hgs
    unfold add
    split_ifs with hsame
    · have hnew : Within n a (.power g.base e) :=
        h.same (Same.binary .power (Same.symm hsame) (.refl e))
      exact List.forall_mem_cons.mpr
        ⟨List.forall_mem_append.mpr ⟨hg, List.forall_mem_singleton.mpr hnew⟩, hrest⟩
    · exact List.forall_mem_cons.mpr ⟨hg, add_within h hrest⟩

/-- **The groups of like bases** hold the powers. -/
theorem heft_collect [OrderedScalar α] (ps : List (Expr α × Expr α)) :
    ((collect ps).map heft).prod = (ps.map fun p => (Expr.power p.1 p.2).bulk).prod := by
  have hfold : ∀ (ps : List (Expr α × Expr α)) (gs : List (LikeBases α)),
      ((ps.foldl (fun groups p => add p.1 p.2 groups) gs).map heft).prod =
        (gs.map heft).prod * (ps.map fun p => (Expr.power p.1 p.2).bulk).prod := by
    intro ps
    induction ps with
    | nil => exact fun gs => (Nat.mul_one _).symm
    | cons p ps ih =>
      intro gs
      rw [List.foldl_cons, ih, heft_add, List.map_cons, List.prod_cons, Nat.mul_assoc]
  rw [collect, hfold, List.map_nil, List.prod_nil, Nat.one_mul]

theorem collect_within [CongruentScalar α] {n a : Nat} {ps : List (Expr α × Expr α)}
    (h : ∀ p ∈ ps, Within n a (.power p.1 p.2)) : ∀ g ∈ collect ps, AllWithin n a g :=
  List.foldlRecOn (motive := fun gs : List (LikeBases α) => ∀ g ∈ gs, AllWithin n a g) ps _
    (by simp) fun _ ih p hp => add_within (h p hp) ih

variable {n a : Nat} {solve : Solver α} (hs : Bounded n solve)
include hs

/-- **A power of a sum of exponents** is no bulkier than the power of one of them. -/
theorem power_sum_shrinks {b s : Expr α} {es : List (Expr α)} (hne : es ≠ [])
    (hes : ∀ e ∈ es, Within n a (.power b e)) (h : solve (.sum es) = some s) :
    Within n a (.power b s) ∧ ∃ e ∈ es, (Expr.power b s).bulk ≤ (Expr.power b e).bulk := by
  obtain ⟨e, he⟩ : ∃ e, e ∈ es.argmax Expr.degree := by
    rcases hmax : es.argmax Expr.degree with _ | e
    · exact absurd (List.argmax_eq_none.mp hmax) hne
    · exact ⟨e, rfl⟩
  have hmem := List.argmax_mem he
  have hmax : ∀ x ∈ es, x.degree ≤ e.degree := fun x hx => List.le_of_mem_argmax hx he
  have hconst (hconst : e.isConst = true) : s.isConst = true := by
    refine hs.constants.sum (fun x hx => ?_) h
    by_contra hx'
    have hle := hmax x hx
    rw [Expr.degree_eq_zero hconst, Expr.degree, if_neg hx'] at hle
    omega
  have hsize : s.atomSize ≤ e.atomSize := by
    refine (hs.sum (fun x hx => ⟨(hes x hx).exponent.tame, ?_⟩) h).1.atomSize_le
    have hle := hmax x hx
    by_cases hx' : x.isConst = true
    · obtain ⟨c, rfl⟩ := Expr.isConst_iff_exists.mp hx'
      exact Nat.zero_le _
    · rw [Expr.degree, if_neg hx', Expr.degree] at hle
      split_ifs at hle <;> omega
  have hwithin : Within n a s := (hs.sum (fun x hx => (hes x hx).exponent) h).1
  refine ⟨(hes e hmem).with_exponent hwithin hconst, e, hmem, ?_⟩
  rw [Expr.bulk_power, Expr.bulk_power]
  exact Nat.mul_le_mul_left _ (Nat.pow_le_pow_right (by omega) (Expr.degree_le hsize hconst))

theorem power_sum_le_heft {g : LikeBases α} {s : Expr α} (hne : g.exponents ≠ [])
    (hg : AllWithin n a g) (h : solve (.sum g.exponents) = some s) :
    Within n a (.power g.base s) ∧ (Expr.power g.base s).bulk ≤ g.heft := by
  obtain ⟨hwithin, e, he, hle⟩ := power_sum_shrinks hs hne hg h
  refine ⟨hwithin, hle.trans ?_⟩
  have hmembers := bulk_le_prod (List.mem_map_of_mem (f := Expr.power g.base) he)
  rwa [List.map_map] at hmembers

/-- The power of a sum of several exponents that count. -/
theorem power_sum_lt_heft {g : LikeBases α} {s : Expr α} (hg : AllWithin n a g)
    (hlength : 2 ≤ g.exponents.length) (htwo : ∀ e ∈ g.exponents, 2 ≤ (Expr.power g.base e).bulk)
    (h : solve (.sum g.exponents) = some s) : (Expr.power g.base s).bulk < g.heft := by
  have hne : g.exponents ≠ [] := fun hnil => by simp [hnil] at hlength
  obtain ⟨-, e, he, hle⟩ := power_sum_shrinks hs hne hg h
  obtain ⟨before, after, hsplit⟩ := List.append_of_mem he
  obtain ⟨x, hx⟩ : ∃ x, x ∈ before ++ after := by
    refine List.exists_mem_of_length_pos ?_
    rw [hsplit, List.length_append, List.length_cons] at hlength
    rw [List.length_append]
    omega
  have hheft : g.heft = (Expr.power g.base e).bulk *
      ((before ++ after).map fun e => (Expr.power g.base e).bulk).prod := by
    simp only [heft, hsplit, List.map_append, List.map_cons, List.prod_append, List.prod_cons]
    ring
  have hrest : 2 ≤ ((before ++ after).map fun e => (Expr.power g.base e).bulk).prod := by
    have hmem : x ∈ g.exponents := by
      rw [hsplit]
      simpa [or_left_comm] using Or.inr (List.mem_append.mp hx)
    have hmembers := bulk_le_prod (List.mem_map_of_mem (f := Expr.power g.base) hx)
    rw [List.map_map] at hmembers
    exact (htwo x hmem).trans hmembers
  have hpos := Expr.bulk_pos (Expr.power g.base e)
  calc (Expr.power g.base s).bulk < (Expr.power g.base e).bulk * 2 := by omega
    _ ≤ g.heft := hheft ▸ Nat.mul_le_mul_left _ hrest

theorem toPowers_shrinks : ∀ {gs : List (LikeBases α)} {fs : List (Expr α)},
    (∀ g ∈ gs, g.exponents ≠ []) → (∀ g ∈ gs, AllWithin n a g) → toPowers solve gs = some fs →
      (∀ f ∈ fs, Within n a f) ∧ (fs.map bulk).prod ≤ (gs.map heft).prod ∧
        fs.length = gs.length
  | [], fs, _, _, h => by
    rw [toPowers, Option.some.injEq] at h
    simp [← h]
  | g :: gs, fs, hne, hgs, h => by
    simp only [toPowers, Option.bind_eq_bind, Option.bind_eq_some_iff, Option.some.injEq] at h
    obtain ⟨s, hsum, rest, hrest, rfl⟩ := h
    obtain ⟨hg, hgs⟩ := List.forall_mem_cons.mp hgs
    obtain ⟨hgne, hne⟩ := List.forall_mem_cons.mp hne
    obtain ⟨hwithin, hle⟩ := power_sum_le_heft hs hgne hg hsum
    obtain ⟨hwithin', hle', hlength⟩ := toPowers_shrinks hne hgs hrest
    refine ⟨List.forall_mem_cons.mpr ⟨hwithin, hwithin'⟩, Nat.mul_le_mul hle hle', ?_⟩
    rw [List.length_cons, List.length_cons, hlength]

/-- **Collecting several powers that count loses bulk.** -/
theorem toPowers_lt : ∀ {gs : List (LikeBases α)} {fs : List (Expr α)},
    (∀ g ∈ gs, g.exponents ≠ []) → (∀ g ∈ gs, AllWithin n a g) → toPowers solve gs = some fs →
      ∀ g ∈ gs, 2 ≤ g.exponents.length →
        (∀ e ∈ g.exponents, 2 ≤ (Expr.power g.base e).bulk) →
          (fs.map bulk).prod < (gs.map heft).prod
  | [], fs, _, _, _ => by simp
  | g :: gs, fs, hne, hgs, h => by
    simp only [toPowers, Option.bind_eq_bind, Option.bind_eq_some_iff, Option.some.injEq] at h
    obtain ⟨s, hsum, rest, hrest, rfl⟩ := h
    obtain ⟨hg, hgs⟩ := List.forall_mem_cons.mp hgs
    obtain ⟨hgne, hne⟩ := List.forall_mem_cons.mp hne
    obtain ⟨-, hle', -⟩ := toPowers_shrinks hs hne hgs hrest
    have hpos := Expr.prod_bulk_pos rest
    rw [List.map_cons, List.prod_cons, List.map_cons, List.prod_cons]
    refine List.forall_mem_cons.mpr ⟨fun hlength htwo => ?_, fun g' hg' hlength htwo => ?_⟩
    · exact Nat.mul_lt_mul_of_lt_of_le (power_sum_lt_heft hs hg hlength htwo hsum) hle' (hpos.trans_le hle')
    · have hlt := toPowers_lt hne hgs hrest g' hg' hlength htwo
      obtain ⟨-, hle⟩ := power_sum_le_heft hs hgne hg hsum
      exact Nat.mul_lt_mul_of_le_of_lt hle hlt ((Expr.bulk_pos _).trans_le hle)

end LikeBases

/-! ### The rule -/

omit [Scalar α] in
theorem power?_eq_some {e b x : Expr α} (h : power? e = some (b, x)) : e = .power b x := by
  unfold power? at h
  split at h
  · cases h
    rfl
  · cases h

/-- The powers among pieces that are tame. -/
theorem within_of_mem_powers {n a : Nat} {pieces : List (Expr α)}
    (h : ∀ p ∈ pieces, Within n a p) : ∀ p ∈ pieces.filterMap power?,
      Within n a (.power p.1 p.2) := by
  intro p hp
  obtain ⟨e, he, hpower⟩ := List.mem_filterMap.mp hp
  rw [← power?_eq_some hpower]
  exact h e he

/-- The powers of some pieces and the pieces that are no powers. -/
theorem prod_bulk_pieces (pieces : List (Expr α)) :
    ((pieces.filterMap power?).map fun p => (Expr.power p.1 p.2).bulk).prod *
      ((pieces.filter fun e => (power? e).isNone).map bulk).prod = (pieces.map bulk).prod := by
  rw [← prod_bulk_perm (powers_leftovers_perm pieces), List.map_append, List.prod_append,
    List.map_map]
  rfl

section Standard

variable [StandardScalar α]

/-- The product of constants is no bulkier than they are. -/
theorem prod_bulk_coefficient (es : List (Expr α)) :
    ((coefficient es).map bulk).prod ≤ ((es.filter Expr.isConst).map bulk).prod := by
  rw [filter_isConst_eq]
  simp only [coefficient]
  by_cases hones : ∀ c ∈ constantsOf es, Scalar.Same c Scalar.one
  · -- ones only
    have htotal : Scalar.Same (Scalar.product (constantsOf es)) Scalar.one := by
      refine List.foldlRecOn (motive := fun x : α => Scalar.Same x Scalar.one) _ _
        (Scalar.Same.refl _) fun x hx c hc => ?_
      exact (CongruentScalar.mul hx (hones c hc)).trans StandardScalar.one_mul_one
    rw [htotal.eq_eq (.refl Scalar.one), StandardScalar.one_eq_one, if_pos rfl]
    exact Expr.prod_bulk_pos _
  · push Not at hones
    obtain ⟨c, hc, hne⟩ := hones
    have hbulk : (Expr.const c).bulk = 2 := by
      refine Expr.bulk_const_of_ne (Bool.eq_false_iff.mpr fun heq => hne ?_)
      exact Scalar.same_of_eq heq
    have htwo := bulk_le_prod (List.mem_map_of_mem (f := Expr.const) hc)
    split_ifs
    · exact Expr.prod_bulk_pos _
    · rw [List.map_singleton, List.prod_singleton]
      exact (Expr.bulk_const_le _).trans (hbulk ▸ htwo)

end Standard

section Rule

variable {n a : Nat} {solve : Solver α} (hs : Bounded n solve)
include hs

theorem denominators_shrinks : ∀ {fs ds : List (Expr α)}, (∀ f ∈ fs, Within n a f) →
    denominators solve fs = some ds →
      (∀ d ∈ ds, Within n a d) ∧ (ds.map bulk).prod ≤ (fs.map bulk).prod := by
  intro fs
  induction fs with
  | nil =>
    intro ds hfs h
    rw [denominators, Option.some.injEq] at h
    rw [← h]
    exact ⟨hfs, Nat.le_refl _⟩
  | cons f fs ih =>
    intro ds hfs h
    obtain ⟨hf, hrest⟩ := List.forall_mem_cons.mp hfs
    rw [List.map_cons, List.prod_cons]
    by_cases hpower : ∃ b e, f = .power b e
    · obtain ⟨b, e, rfl⟩ := hpower
      simp only [denominators, Option.bind_eq_bind, Option.bind_eq_some_iff,
        Option.some.injEq] at h
      obtain ⟨negated, hnegated, d, hd, ds', hds, rfl⟩ := h
      obtain ⟨hnegative, hle⟩ := negateExponent_shrinks hs hf hnegated
      obtain ⟨hd, hd'⟩ := hs.step hnegative hd
      obtain ⟨hds, hds'⟩ := ih hrest hds
      rw [List.map_cons, List.prod_cons]
      exact ⟨List.forall_mem_cons.mpr ⟨hd, hds⟩, Nat.mul_le_mul (hd'.trans hle) hds'⟩
    · rw [denominators.eq_3 _ _ _ fun b e heq => hpower ⟨b, e, heq⟩] at h
      obtain ⟨hds, hds'⟩ := ih hrest h
      exact ⟨hds, hds'.trans (Nat.le_mul_of_pos_left _ (Expr.bulk_pos f))⟩

omit hs in
theorem downgrade_product_shrinks [StandardScalar α] {fs : List (Expr α)}
    (hfs : ∀ f ∈ fs, Within n a f) :
    Within n a (Expr.product fs).downgrade ∧
      (Expr.product fs).downgrade.bulk = (fs.map bulk).prod := by
  match fs, hfs with
  | [], _ =>
    refine ⟨.const _, ?_⟩
    rw [Expr.downgrade, Expr.bulk, StandardScalar.one_eq_one, if_pos rfl]
    rfl
  | [f], hfs => exact ⟨hfs f List.mem_cons_self, (Nat.mul_one _).symm⟩
  | f :: g :: fs, hfs => exact ⟨Within.product_iff.mpr hfs, Expr.bulk_product _⟩

/-- **Factors put together** as a product or a fraction. -/
theorem assemble_shrinks [StandardScalar α] {fs : List (Expr α)} {r : Expr α}
    (hfs : ∀ f ∈ fs, Within n a f) (h : assemble solve fs = some r) :
    Within n a r ∧ r.bulk ≤ (fs.map bulk).prod := by
  have hparts (p : Expr α → Bool) : ∀ f ∈ fs.filter p, Within n a f := fun f hf =>
    hfs f (List.mem_of_mem_filter hf)
  rw [prod_bulk_filter isBelow fs]
  unfold assemble at h
  simp only at h
  split_ifs at h with hnone hone
  · -- nothing is below the line
    rw [List.isEmpty_iff] at hnone
    obtain ⟨hr, hbulk⟩ := downgrade_product_shrinks (hparts fun e => !isBelow e)
    rw [← Option.some.inj h, hnone, hbulk, List.map_nil, List.prod_nil, Nat.one_mul]
    exact ⟨hr, Nat.le_refl _⟩
  all_goals
    simp only [Option.bind_eq_bind, Option.bind_eq_some_iff, Option.some.injEq] at h
    obtain ⟨dens, hdens, num, hnum, den, hden, rfl⟩ := h
    obtain ⟨hds, hds'⟩ := denominators_shrinks hs (hparts isBelow) hdens
    obtain ⟨hden, hden'⟩ := hs.product hds hden
    suffices hnum : Within n a num ∧
        num.bulk ≤ ((fs.filter fun e => !isBelow e).map bulk).prod by
      rw [Expr.bulk_fraction, Nat.mul_comm]
      exact ⟨Within.fraction_iff.mpr ⟨hnum.1, hden⟩, Nat.mul_le_mul (hden'.trans hds') hnum.2⟩
  · -- everything is below the line
    rw [← hnum, Expr.bulk, StandardScalar.one_eq_one, if_pos rfl]
    exact ⟨.const _, Expr.prod_bulk_pos _⟩
  · exact hs.product (hparts _) hnum

/-- **The stages of multiplying factors**, from the flat list of factors to the expressions that are
put together, with what each stage does to the bulk. -/
structure Collects (n a : Nat) (solve : Solver α) (fs flat pieces powers stepped : List (Expr α)) :
    Prop where
  expanded : ∃ es, expandFractions solve fs = some es ∧ factorsOfList es = flat
  asPowers : asPowers solve (nonConstants flat) = some pieces
  combined : combineLikeBases solve (pieces.filterMap power?) = some powers
  steps : solve.steps (coefficient flat ++ powers ++
    pieces.filter fun e => (power? e).isNone) = some stepped
  flat_within : ∀ f ∈ flat, Within n a f
  flat_le : (flat.map bulk).prod ≤ (fs.map bulk).prod
  pieces_shrink : List.Forall₂ (Shrinks n a) (nonConstants flat) pieces
  powers_le : (powers.map bulk).prod ≤
    ((pieces.filterMap power?).map fun p => (Expr.power p.1 p.2).bulk).prod
  powers_length : powers.length = (LikeBases.collect (pieces.filterMap power?)).length
  grouped_within : ∀ e ∈ coefficient flat ++ powers ++
    pieces.filter fun e => (power? e).isNone, Within n a e
  stepped_shrink : List.Forall₂ (Shrinks n a) (coefficient flat ++ powers ++
    pieces.filter fun e => (power? e).isNone) stepped

variable [StandardScalar α]

theorem multiplyPowers_collects {fs : List (Expr α)} {r : Expr α} (hfs : ∀ f ∈ fs, Within n a f)
    (h : multiplyPowers solve fs = some r) :
    ∃ flat pieces powers stepped, Collects n a solve fs flat pieces powers stepped ∧
      assemble solve (Expr.ascending stepped) = some r := by
  simp only [multiplyPowers, Option.bind_eq_bind, Option.bind_eq_some_iff] at h
  obtain ⟨expanded, hexpanded, pieces, hpieces, powers, hpowers, stepped, hstepped, h⟩ := h
  obtain ⟨hexpandedw, hle⟩ := expandFractions_shrinks hs fs expanded hfs hexpanded
  have hflat := factorsOfList_within hexpandedw
  have hshrink := asPowers_shrinks hs _ pieces (fun f hf => hflat f (List.mem_of_mem_filter hf))
    hpieces
  have hpiecesw := Shrinks.within hshrink
  obtain ⟨hpowersw, hpowersle, hlength⟩ := LikeBases.toPowers_shrinks hs
    (LikeBases.exponents_collect _) (LikeBases.collect_within (within_of_mem_powers hpiecesw)) hpowers
  have hcoefficient : ∀ f ∈ coefficient (factorsOfList expanded), Within n a f := by
    rcases length_coefficient_le (factorsOfList expanded) with hnil | ⟨c, hc⟩
    · simp [hnil]
    · simpa [hc] using Within.const c
  have hgrouped : ∀ e ∈ coefficient (factorsOfList expanded) ++ powers ++
      pieces.filter fun e => (power? e).isNone, Within n a e := List.forall_mem_append.mpr
    ⟨List.forall_mem_append.mpr ⟨hcoefficient, hpowersw⟩,
      fun f hf => hpiecesw f (List.mem_of_mem_filter hf)⟩
  refine ⟨factorsOfList expanded, pieces, powers, stepped, ?_, h⟩
  exact
    { expanded := ⟨expanded, hexpanded, rfl⟩
      asPowers := hpieces
      combined := hpowers
      steps := hstepped
      flat_within := hflat
      flat_le := (prod_bulk_factorsOfList expanded).trans_le hle
      pieces_shrink := hshrink
      powers_le := (LikeBases.heft_collect (pieces.filterMap power?)) ▸ hpowersle
      powers_length := hlength
      grouped_within := hgrouped
      stepped_shrink := hs.steps hgrouped hstepped }

namespace Collects

variable {fs flat pieces powers stepped : List (Expr α)}
  (h : Collects n a solve fs flat pieces powers stepped)
include h

omit hs in
/-- What is stepped is no bulkier than the constants and the pieces that it was collected from. -/
theorem grouped_le_pieces : ((coefficient flat ++ powers ++
    pieces.filter fun e => (power? e).isNone).map bulk).prod ≤
      ((flat.filter Expr.isConst).map bulk).prod * (pieces.map bulk).prod := by
  rw [List.map_append, List.map_append, List.prod_append, List.prod_append, Nat.mul_assoc,
    ← prod_bulk_pieces pieces]
  exact Nat.mul_le_mul (prod_bulk_coefficient flat) (Nat.mul_le_mul_right _ h.powers_le)

omit hs in
theorem grouped_le : ((coefficient flat ++ powers ++
    pieces.filter fun e => (power? e).isNone).map bulk).prod ≤ (flat.map bulk).prod := by
  rw [prod_bulk_filter Expr.isConst flat]
  exact h.grouped_le_pieces.trans (Nat.mul_le_mul_left _ (Shrinks.prod_le h.pieces_shrink))

omit hs in
theorem stepped_le : (stepped.map bulk).prod ≤ (fs.map bulk).prod :=
  ((Shrinks.prod_le h.stepped_shrink).trans h.grouped_le).trans h.flat_le

end Collects

theorem multiplyPowers_shrinks {fs : List (Expr α)} {r : Expr α} (hfs : ∀ f ∈ fs, Within n a f)
    (h : multiplyPowers solve fs = some r) :
    Within n a r ∧ r.bulk ≤ (fs.map bulk).prod := by
  obtain ⟨flat, pieces, powers, stepped, hcollects, h⟩ := multiplyPowers_collects hs hfs h
  have hstepped := Shrinks.within hcollects.stepped_shrink
  obtain ⟨hr, hle⟩ := assemble_shrinks hs
    (fun f hf => hstepped f (StableSort.mem_sort.mp hf)) h
  rw [prod_bulk_perm (StableSort.sort_perm _ stepped)] at hle
  exact ⟨hr, hle.trans hcollects.stepped_le⟩

omit hs in
/-- A zero counts. -/
theorem bulk_of_isZero {e : Expr α} (h : e.isZero = true) : e.bulk = 2 := by
  cases e with
  | const x =>
    refine Expr.bulk_const_of_ne (Bool.eq_false_iff.mpr fun hone => ?_)
    have hzero : Scalar.eq (Scalar.one : α) Scalar.zero = true :=
      Scalar.eq_trans (Scalar.eq_symm hone) h
    rw [StandardScalar.one_eq_zero] at hzero
    cases hzero
  | _ => cases h

/-- **The product of tame factors is tame** and no bulkier than they are together. -/
theorem multiplyFactors_shrinks {fs : List (Expr α)} {r : Expr α} (hfs : ∀ f ∈ fs, Within n a f)
    (h : multiplyFactors solve fs = some r) :
    Within n a r ∧ r.bulk ≤ (fs.map bulk).prod := by
  unfold multiplyFactors at h
  split at h
  · next f =>
    rw [← Option.some.inj h, List.map_singleton, List.prod_singleton]
    exact ⟨hfs f (List.mem_singleton_self f), Nat.le_refl _⟩
  · split_ifs at h with hzero
    · obtain ⟨f, hf, hf0⟩ := List.any_eq_true.mp hzero
      rw [← Option.some.inj h]
      refine ⟨.const _, (Expr.bulk_const_le _).trans ?_⟩
      rw [← bulk_of_isZero hf0]
      exact bulk_le_prod hf
    · have hothers : ∀ f ∈ fs.filter fun f => !f.isOne, Within n a f := fun f hf =>
        hfs f (List.mem_of_mem_filter hf)
      have hnonone : ∀ f ∈ fs.filter fun f => !f.isOne, f.isOne = false := fun f hf => by
        simpa using (List.mem_filter.mp hf).2
      have hdropped : ((fs.filter fun f => !f.isOne).map bulk).prod ≤ (fs.map bulk).prod := by
        rw [prod_bulk_filter Expr.isOne fs]
        exact Nat.le_mul_of_pos_left _ (Expr.prod_bulk_pos _)
      generalize fs.filter (fun f => !f.isOne) = others at h hothers hnonone hdropped
      split at h
      · rw [← Option.some.inj h, Expr.bulk, StandardScalar.one_eq_one, if_pos rfl]
        exact ⟨.const _, Expr.prod_bulk_pos _⟩
      · next f =>
        rw [← Option.some.inj h]
        rw [List.map_singleton, List.prod_singleton] at hdropped
        exact ⟨hothers f (List.mem_singleton_self f), hdropped⟩
      · next x y =>
        rw [← Option.some.inj h]
        refine ⟨.const _, (Expr.bulk_const_le _).trans (Nat.le_trans ?_ hdropped)⟩
        rw [← Expr.bulk_const_of_ne (hnonone (.const x) List.mem_cons_self)]
        exact bulk_le_prod List.mem_cons_self
      · have hsorted : ∀ f ∈ Expr.ascending others, Within n a f := fun f hf =>
          hothers f (StableSort.mem_sort.mp hf)
        rw [← prod_bulk_perm (StableSort.sort_perm _ others)] at hdropped
        simp only at h
        split at h
        · next ts hdistribute =>
          obtain ⟨f, -, hbulk⟩ := distribute?_bulk hdistribute
          obtain ⟨hr, hle⟩ := hs.sum (distribute?_within hsorted hdistribute) h
          have hpos := Expr.bulk_pos f
          refine ⟨hr, Nat.le_trans ?_ hdropped⟩
          change r.bulk ≤ ((Expr.ascending others).map bulk).prod
          omega
        · obtain ⟨hr, hle⟩ := multiplyPowers_shrinks hs hsorted h
          exact ⟨hr, hle.trans hdropped⟩

end Rule

end SymbolicAlgebra.Simplify
