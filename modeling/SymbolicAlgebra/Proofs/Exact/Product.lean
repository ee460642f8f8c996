import SymbolicAlgebra.Proofs.Exact.Sum

/-! # Products keep their value

Expanding fractions, flattening, multiplying the constants, collecting like bases and moving
negative powers below the line all keep what a list of factors multiplies to, and so the product of
factors has that value (`multiplyFactors_hasValue`). A base below the line is not zero, since a
power of it with a negative exponent is defined; this is why the fraction is defined as well.

A group of like bases stands for the powers that were put into it. Its exponents are whole, so
their sum is, and powers of one base with whole exponents multiply to the power with the sum of the
exponents (`zpow_sum`), also for the base zero, where no exponent is negative. -/

namespace SymbolicAlgebra.Simplify

variable {ρ : Char → ℚ}

/-- Powers of one base multiply to the power with the sum of the exponents. -/
theorem zpow_sum {x : ℚ} : ∀ {ns : List ℤ}, (∀ n ∈ ns, n < 0 → x ≠ 0) →
    x ^ ns.sum = (ns.map (x ^ ·)).prod
  | [], _ => by simp
  | n :: ns, h => by
    have ih := zpow_sum fun m hm => h m (List.mem_cons_of_mem n hm)
    rw [List.sum_cons, List.map_cons, List.prod_cons, ← ih]
    by_cases hx : x = 0
    · have hnonneg : ∀ m ∈ n :: ns, 0 ≤ m := fun m hm => by
        by_contra hneg
        exact h m hm (by omega) hx
      have hn := hnonneg n List.mem_cons_self
      have hsum : 0 ≤ ns.sum := List.sum_nonneg fun m hm => hnonneg m (List.mem_cons_of_mem n hm)
      exact zpow_add' (by omega)
    · exact zpow_add₀ hx n ns.sum

/-! ### Flattening and constants -/

theorem multipliesTo_flatten :
    (∀ (e : Expr ℚ) (x : ℚ), HasValue ρ e x → MultipliesTo ρ (factorsOf e) x) ∧
      ∀ (fs : List (Expr ℚ)) (x : ℚ),
        MultipliesTo ρ fs x → MultipliesTo ρ (factorsOfList fs) x := by
  refine factorsOf.mutual_induct _ _ ?product ?other ?nil ?cons
  case product =>
    intro fs ih x h
    rw [factorsOf]
    exact ih x (hasValue_product_iff.mp h)
  case other =>
    intro e he x h
    rw [factorsOf.eq_2 e he]
    exact MultipliesTo.singleton_iff.mpr h
  case nil =>
    intro x h
    rwa [factorsOfList]
  case cons =>
    intro f fs ihf ihfs x h
    obtain ⟨a, b, hf, hfs, rfl⟩ := MultipliesTo.cons_iff.mp h
    rw [factorsOfList]
    exact .append (ihf a hf) (ihfs b hfs)

/-- The constants of a list multiply apart from the other factors. -/
theorem multipliesTo_nonConstants : ∀ {fs : List (Expr ℚ)} {x : ℚ}, MultipliesTo ρ fs x →
    ∃ y, MultipliesTo ρ (nonConstants fs) y ∧ x = (constantsOf fs).prod * y
  | [], x, h => ⟨x, h, by simp [constantsOf]⟩
  | f :: fs, x, h => by
    obtain ⟨a, b, hf, hfs, rfl⟩ := MultipliesTo.cons_iff.mp h
    obtain ⟨y, hy, rfl⟩ := multipliesTo_nonConstants hfs
    by_cases hc : f.isConst = true
    · obtain ⟨c, rfl⟩ := isConst_iff.mp hc
      have hca : c = a := by simpa using hf.value_eq
      rw [nonConstants_const, constantsOf_const, List.prod_cons, hca]
      exact ⟨y, hy, (mul_assoc _ _ _).symm⟩
    · rw [nonConstants_other hc, constantsOf_other hc]
      exact ⟨a * y, .cons hf hy, mul_left_comm _ _ _⟩

variable [ExactScalar]

theorem multipliesTo_coefficient (es : List (Expr ℚ)) :
    MultipliesTo ρ (coefficient es) (constantsOf es).prod := by
  unfold coefficient
  simp only [scalar_product_eq, ExactScalar.eq_eq, ExactScalar.one_eq, decide_eq_true_eq]
  split_ifs with h
  · rw [h]
    exact .nil
  · exact MultipliesTo.singleton_iff.mpr (.const ρ _)

theorem multipliesTo_dropOnes : ∀ {fs : List (Expr ℚ)} {x : ℚ}, MultipliesTo ρ fs x →
    MultipliesTo ρ (fs.filter fun f => !f.isOne) x
  | [], x, h => h
  | f :: fs, x, h => by
    obtain ⟨a, b, hf, hfs, rfl⟩ := MultipliesTo.cons_iff.mp h
    have ih := multipliesTo_dropOnes hfs
    by_cases hone : f.isOne = true
    · have ha : a = 1 := by rw [← hf.value_eq, isOne_iff.mp hone]; simp
      rw [List.filter_cons_of_neg (by simp [hone]), ha, one_mul]
      exact ih
    · rw [List.filter_cons_of_pos (by simp [hone])]
      exact .cons hf ih

/-- **A factor of zero makes the product zero.** -/
theorem eq_zero_of_any_isZero {fs : List (Expr ℚ)} {x : ℚ} (h : MultipliesTo ρ fs x)
    (hzero : fs.any Expr.isZero = true) : x = 0 := by
  obtain ⟨f, hf, hf0⟩ := List.any_eq_true.mp hzero
  rw [← h.prod_eq, List.prod_eq_zero_iff, List.mem_map]
  exact ⟨f, hf, by rw [isZero_iff.mp hf0]; simp⟩

/-- **Distribution keeps the value.** -/
theorem distribute?_sumsTo {fs ts : List (Expr ℚ)} {x : ℚ} (hfs : MultipliesTo ρ fs x)
    (h : distribute? fs = some ts) : SumsTo ρ ts x := by
  unfold distribute? at h
  split at h
  · next other first second =>
    split_ifs at h
    obtain rfl := Option.some.inj h
    obtain ⟨a, s, ha, hsum, rfl⟩ := MultipliesTo.cons_iff.mp hfs
    obtain ⟨b, r, hb, hr, rfl⟩ :=
      SumsTo.cons_iff.mp (hasValue_sum_iff.mp (MultipliesTo.singleton_iff.mp hsum))
    have hc := SumsTo.singleton_iff.mp hr
    rw [mul_add]
    exact .cons (hasValue_productOf (.pair ha hb))
      (SumsTo.singleton_iff.mpr (hasValue_productOf (.pair ha hc)))
  · cases h

/-! ### Reciprocals -/

section Reciprocal
variable {solve : Solver ℚ} (hs : Exact ρ solve)
include hs

theorem negateExponent_eq {n : ℤ} {r : Expr ℚ} (h : negateExponent solve (.const n) = some r) :
    r = .const ((-n : ℤ) : ℚ) := by
  rw [hs.mul_consts h, ExactScalar.negOne_eq, Int.cast_neg, neg_one_mul]

theorem multipliesTo_reciprocal :
    (∀ (e : Expr ℚ) (x : ℚ) (fs : List (Expr ℚ)), HasValue ρ e x → x ≠ 0 →
        reciprocal solve e = some fs → MultipliesTo ρ fs x⁻¹) ∧
      ∀ (es : List (Expr ℚ)) (x : ℚ) (fs : List (Expr ℚ)), MultipliesTo ρ es x → x ≠ 0 →
        reciprocals solve es = some fs → MultipliesTo ρ fs x⁻¹ := by
  refine reciprocal.mutual_induct _ _ ?power ?product ?other ?nil ?cons
  case power =>
    intro b e x fs he hx h
    simp only [reciprocal, Option.bind_eq_bind, Option.bind_eq_some_iff, Option.some.injEq] at h
    obtain ⟨negated, hnegated, rfl⟩ := h
    obtain ⟨n, y, rfl, hb, hn, rfl⟩ := he.of_power
    rw [negateExponent_eq hs hnegated, ← zpow_neg]
    refine MultipliesTo.singleton_iff.mpr (.power hb fun hneg hy => ?_)
    exact hx (by rw [hy, zero_zpow n (by omega)])
  case product =>
    intro es ih x fs he hx h
    exact ih x fs (hasValue_product_iff.mp he) hx (by rwa [reciprocal] at h)
  case other =>
    intro e hpower hproduct x fs he hx h
    rw [reciprocal.eq_3 solve e hpower hproduct, Option.some.injEq] at h
    rw [← h]
    exact MultipliesTo.singleton_iff.mpr (he.recip hx)
  case nil =>
    intro x fs hes hx h
    rw [reciprocals, Option.some.injEq] at h
    rw [← h, ← hes.prod_eq]
    simpa using MultipliesTo.nil
  case cons =>
    intro e es ihe ihes x fs hes hx h
    simp only [reciprocals, Option.bind_eq_bind, Option.bind_eq_some_iff, Option.some.injEq] at h
    obtain ⟨first, hfirst, rest, hrest, rfl⟩ := h
    obtain ⟨a, b, ha, hb, rfl⟩ := MultipliesTo.cons_iff.mp hes
    rw [mul_inv]
    exact .append (ihe a first ha (left_ne_zero_of_mul hx) hfirst)
      (ihes b rest hb (right_ne_zero_of_mul hx) hrest)

theorem multipliesTo_expandFractions : ∀ (es : List (Expr ℚ)) (x : ℚ) (fs : List (Expr ℚ)),
    MultipliesTo ρ es x → expandFractions solve es = some fs → MultipliesTo ρ fs x := by
  refine expandFractions.induct _ ?nil ?fraction ?other
  case nil =>
    intro x fs hes h
    rw [expandFractions, Option.some.injEq] at h
    rwa [← h]
  case fraction =>
    intro num den es ih x fs hes h
    simp only [expandFractions, Option.bind_eq_bind, Option.bind_eq_some_iff,
      Option.some.injEq] at h
    obtain ⟨below, hbelow, rest, hrest, rfl⟩ := h
    obtain ⟨q, b, hq, hb, rfl⟩ := MultipliesTo.cons_iff.mp hes
    obtain ⟨y, z, hy, hz, hne, rfl⟩ := hq.of_fraction
    rw [div_eq_mul_inv]
    exact .append (.cons hy ((multipliesTo_reciprocal hs).1 den z below hz hne hbelow))
      (ih b rest hb hrest)
  case other =>
    intro e es he ih x fs hes h
    rw [expandFractions.eq_3 solve e es he] at h
    simp only [Option.bind_eq_bind, Option.bind_eq_some_iff, Option.some.injEq] at h
    obtain ⟨rest, hrest, rfl⟩ := h
    obtain ⟨a, b, ha, hb, rfl⟩ := MultipliesTo.cons_iff.mp hes
    exact .cons ha (ih b rest hb hrest)

theorem multipliesTo_asPowers : ∀ (es : List (Expr ℚ)) (x : ℚ) (fs : List (Expr ℚ)),
    MultipliesTo ρ es x → asPowers solve es = some fs → MultipliesTo ρ fs x := by
  refine asPowers.induct _ ?nil ?power ?other
  case nil =>
    intro x fs hes h
    rw [asPowers, Option.some.injEq] at h
    rwa [← h]
  case power =>
    intro b e es ih x fs hes h
    simp only [asPowers, Option.bind_eq_bind, Option.bind_eq_some_iff, Option.some.injEq] at h
    obtain ⟨f, hf, rest, hrest, rfl⟩ := h
    obtain ⟨y, z, hy, hz, rfl⟩ := MultipliesTo.cons_iff.mp hes
    exact .cons (hs.step hy hf) (ih z rest hz hrest)
  case other =>
    intro e es he ih x fs hes h
    rw [asPowers.eq_3 solve e es he] at h
    simp only [Option.bind_eq_bind, Option.bind_eq_some_iff, Option.some.injEq] at h
    obtain ⟨b, hb, rest, hrest, rfl⟩ := h
    obtain ⟨y, z, hy, hz, rfl⟩ := MultipliesTo.cons_iff.mp hes
    rw [ExactScalar.one_eq]
    exact .cons (hs.step hy hb).power_one (ih z rest hz hrest)

end Reciprocal

/-! ### Like bases -/

namespace LikeBases

/-- The powers that were put into a group. -/
def powers (g : LikeBases ℚ) : List (Expr ℚ) := g.exponents.map fun e => .power g.base e

/-- **A power joins one group and changes nothing else.** -/
theorem powers_add_perm (b e : Expr ℚ) : ∀ gs : List (LikeBases ℚ),
    ((add b e gs).flatMap powers).Perm (gs.flatMap powers ++ [.power b e])
  | [] => .refl _
  | g :: gs => by
    unfold add
    split_ifs with heq
    · obtain rfl := eq_of_beq heq
      simp only [List.flatMap_cons, powers, List.map_append, List.append_assoc]
      exact List.Perm.append_left _ List.perm_append_comm
    · simp only [List.flatMap_cons, List.append_assoc]
      exact List.Perm.append_left _ (powers_add_perm b e gs)

theorem powers_foldl_add_perm : ∀ (ps : List (Expr ℚ × Expr ℚ)) (gs : List (LikeBases ℚ)),
    ((ps.foldl (fun groups p => add p.1 p.2 groups) gs).flatMap powers).Perm
      (gs.flatMap powers ++ ps.map fun p => .power p.1 p.2)
  | [], gs => by simp
  | p :: ps, gs => by
    have hfirst := (powers_add_perm p.1 p.2 gs).append_right (ps.map fun p => Expr.power p.1 p.2)
    rw [List.append_assoc] at hfirst
    rw [List.foldl_cons, List.map_cons]
    exact (powers_foldl_add_perm ps _).trans hfirst

theorem powers_collect_perm (ps : List (Expr ℚ × Expr ℚ)) :
    ((collect ps).flatMap powers).Perm (ps.map fun p => .power p.1 p.2) :=
  powers_foldl_add_perm ps []

theorem exponents_add_ne_nil {b e : Expr ℚ} : ∀ {gs : List (LikeBases ℚ)},
    (∀ g ∈ gs, g.exponents ≠ []) → ∀ g ∈ add b e gs, g.exponents ≠ []
  | [], _, g, hg => by
    rw [add, List.mem_singleton] at hg
    simp [hg]
  | g₀ :: gs, h, g, hg => by
    obtain ⟨h₀, hrest⟩ := List.forall_mem_cons.mp h
    unfold add at hg
    split_ifs at hg
    · rcases List.mem_cons.mp hg with rfl | hg
      · simp
      · exact hrest g hg
    · rcases List.mem_cons.mp hg with rfl | hg
      · exact h₀
      · exact exponents_add_ne_nil hrest g hg

theorem exponents_collect_ne_nil (ps : List (Expr ℚ × Expr ℚ)) :
    ∀ g ∈ collect ps, g.exponents ≠ [] :=
  List.foldlRecOn (motive := fun gs : List (LikeBases ℚ) => ∀ g ∈ gs, g.exponents ≠ []) ps _
    (by simp) fun _ ih _ _ => exponents_add_ne_nil ih

omit [ExactScalar] in
/-- The exponents of defined powers of one base are whole. -/
theorem exists_whole {b : Expr ℚ} : ∀ {es : List (Expr ℚ)},
    (∀ e ∈ es, Defined ρ (.power b e)) →
      ∃ ns : List ℤ, es = ns.map (fun n => .const (n : ℚ)) ∧ ∀ n ∈ ns, n < 0 → b.value ρ ≠ 0
  | [], _ => ⟨[], rfl, by simp⟩
  | e :: es, h => by
    obtain ⟨he, hes⟩ := List.forall_mem_cons.mp h
    obtain ⟨n, rfl, -, hn⟩ := he.of_power
    obtain ⟨ns, rfl, hns⟩ := exists_whole hes
    exact ⟨n :: ns, rfl, List.forall_mem_cons.mpr ⟨hn, hns⟩⟩

variable {solve : Solver ℚ} (hs : Exact ρ solve)
include hs

omit [ExactScalar] in
/-- **The power of a group has the value of the powers in it.** -/
theorem toPower_hasValue {g : LikeBases ℚ} {e : Expr ℚ} {x : ℚ} (hne : g.exponents ≠ [])
    (hg : MultipliesTo ρ g.powers x) (h : solve (.sum g.exponents) = some e) :
    HasValue ρ (.power g.base e) x := by
  have hdef : ∀ e ∈ g.exponents, Defined ρ (.power g.base e) := fun e he =>
    hg.isDefined _ (List.mem_map_of_mem he)
  obtain ⟨ns, hns, hneg⟩ := exists_whole hdef
  have hbase : Defined ρ g.base := by
    obtain ⟨e, he⟩ := List.exists_mem_of_ne_nil _ hne
    obtain ⟨-, -, hb, -⟩ := (hdef e he).of_power
    exact hb
  have he : e = .const ((ns.sum : ℤ) : ℚ) := by
    have hcs : g.exponents = (ns.map (Int.cast : ℤ → ℚ)).map .const := by
      rw [hns, List.map_map]
      rfl
    rw [hcs] at h
    rw [hs.sum_consts h, ← Int.cast_list_sum]
  have hx : x = g.base.value ρ ^ ns.sum := by
    rw [zpow_sum hneg, ← hg.prod_eq, powers, hns]
    simp [Function.comp_def]
  rw [he, hx]
  refine hbase.hasValue.power fun hlt => ?_
  obtain ⟨n, hn, hn0⟩ : ∃ n ∈ ns, n < 0 := by
    by_contra hall
    push Not at hall
    exact absurd (List.sum_nonneg hall) (by omega)
  exact hneg n hn hn0

omit [ExactScalar] in
theorem toPowers_multipliesTo : ∀ {gs : List (LikeBases ℚ)} {fs : List (Expr ℚ)} {x : ℚ},
    (∀ g ∈ gs, g.exponents ≠ []) → MultipliesTo ρ (gs.flatMap powers) x →
      toPowers solve gs = some fs → MultipliesTo ρ fs x
  | [], fs, x, _, hgs, h => by
    rw [toPowers, Option.some.injEq] at h
    rwa [← h]
  | g :: gs, fs, x, hne, hgs, h => by
    simp only [toPowers, Option.bind_eq_bind, Option.bind_eq_some_iff, Option.some.injEq] at h
    obtain ⟨e, he, rest, hrest, rfl⟩ := h
    rw [List.flatMap_cons] at hgs
    obtain ⟨a, b, ha, hb, rfl⟩ := MultipliesTo.append_iff.mp hgs
    obtain ⟨hg, hgs'⟩ := List.forall_mem_cons.mp hne
    exact .cons (toPower_hasValue hs hg ha he) (toPowers_multipliesTo hgs' hb hrest)

end LikeBases

omit [ExactScalar] in
/-- The powers of a list, with the factors that are none, are its factors. -/
theorem powers_append_leftovers_perm : ∀ fs : List (Expr ℚ),
    ((fs.filterMap power?).map (fun p => Expr.power p.1 p.2) ++
      fs.filter fun e => (power? e).isNone).Perm fs
  | [] => .refl _
  | f :: fs => by
    have ih := powers_append_leftovers_perm fs
    by_cases hp : ∃ b e, f = .power b e
    · obtain ⟨b, e, rfl⟩ := hp
      exact ih.cons (.power b e)
    · have hnone : power? f = none := by
        unfold power?
        split
        · exact absurd ⟨_, _, rfl⟩ hp
        · rfl
      rw [List.filterMap_cons_none hnone, List.filter_cons_of_pos (by simp [hnone])]
      exact List.perm_middle.trans (ih.cons f)

/-! ### The rule -/

section Rule
variable {solve : Solver ℚ} (hs : Exact ρ solve)
include hs

theorem combineLikeBases_multipliesTo {ps : List (Expr ℚ × Expr ℚ)} {fs : List (Expr ℚ)} {x : ℚ}
    (hps : MultipliesTo ρ (ps.map fun p => .power p.1 p.2) x)
    (h : combineLikeBases solve ps = some fs) : MultipliesTo ρ fs x :=
  LikeBases.toPowers_multipliesTo hs (LikeBases.exponents_collect_ne_nil ps)
    (hps.perm (LikeBases.powers_collect_perm ps).symm) h

/-- Powers below the line are not zero, and their denominators are one over them. -/
theorem multipliesTo_denominators : ∀ {fs ds : List (Expr ℚ)} {x : ℚ}, MultipliesTo ρ fs x →
    (∀ f ∈ fs, isBelow f = true) → denominators solve fs = some ds →
      x ≠ 0 ∧ MultipliesTo ρ ds x⁻¹
  | [], ds, x, hfs, _, h => by
    rw [denominators, Option.some.injEq] at h
    rw [← h, ← hfs.prod_eq]
    simpa using MultipliesTo.nil
  | f :: fs, ds, x, hfs, hbelow, h => by
    obtain ⟨a, y, ha, hy, rfl⟩ := MultipliesTo.cons_iff.mp hfs
    obtain ⟨hf, hrest⟩ := List.forall_mem_cons.mp hbelow
    obtain ⟨b, e, rfl⟩ : ∃ b e, f = .power b e := by
      unfold isBelow at hf
      split at hf
      · exact ⟨_, _, rfl⟩
      · cases hf
    obtain ⟨n, z, rfl, hb, hn, rfl⟩ := ha.of_power
    have hneg : n < 0 := by simpa [isBelow, Expr.isNegative] using hf
    simp only [denominators, Option.bind_eq_bind, Option.bind_eq_some_iff, Option.some.injEq] at h
    obtain ⟨negated, hnegated, d, hd, ds', hds, rfl⟩ := h
    rw [negateExponent_eq hs hnegated] at hd
    obtain ⟨hy0, hds⟩ := multipliesTo_denominators hy hrest hds
    refine ⟨mul_ne_zero (zpow_ne_zero n (hn hneg)) hy0, ?_⟩
    rw [mul_inv, ← zpow_neg]
    exact .cons (hs.step (hb.power (by omega)) hd) hds

theorem assemble_hasValue {fs : List (Expr ℚ)} {r : Expr ℚ} {x : ℚ} (hfs : MultipliesTo ρ fs x)
    (h : assemble solve fs = some r) : HasValue ρ r x := by
  obtain ⟨y, z, hbelow, habove, rfl⟩ := MultipliesTo.append_iff.mp
    (hfs.perm (List.filter_append_perm isBelow fs).symm)
  unfold assemble at h
  simp only at h
  split_ifs at h with hnone hone
  · -- nothing is below the line
    rw [List.isEmpty_iff] at hnone
    rw [hnone] at hbelow
    have hy : y = 1 := hbelow.prod_eq.symm
    rw [← Option.some.inj h, hy, one_mul]
    exact (hasValue_product_iff.mpr habove).downgrade
  all_goals
    simp only [Option.bind_eq_bind, Option.bind_eq_some_iff, Option.some.injEq] at h
    obtain ⟨dens, hdens, num, hnum, den, hden, rfl⟩ := h
    obtain ⟨hy, hds⟩ := multipliesTo_denominators hs hbelow
      (fun f hf => (List.mem_filter.mp hf).2) hdens
    have hdv := hs.product hds hden
    suffices hnv : HasValue ρ num z by
      have := hnv.fraction hdv (inv_ne_zero hy)
      rwa [div_inv_eq_mul, mul_comm] at this
  · -- everything is below the line
    rw [List.isEmpty_iff] at hone
    rw [hone] at habove
    have hz : z = 1 := habove.prod_eq.symm
    rw [← hnum, hz, ExactScalar.one_eq]
    exact .const ρ 1
  · exact hs.product habove hnum

theorem multiplyPowers_hasValue {fs : List (Expr ℚ)} {r : Expr ℚ} {x : ℚ}
    (hfs : MultipliesTo ρ fs x) (h : multiplyPowers solve fs = some r) : HasValue ρ r x := by
  simp only [multiplyPowers, Option.bind_eq_bind, Option.bind_eq_some_iff] at h
  obtain ⟨expanded, hexpanded, pieces, hpieces, powers, hpowers, stepped, hstepped, h⟩ := h
  have hflat := multipliesTo_flatten.2 _ _ (multipliesTo_expandFractions hs _ _ _ hfs hexpanded)
  obtain ⟨y, hy, rfl⟩ := multipliesTo_nonConstants hflat
  obtain ⟨p, l, hp, hl, rfl⟩ := MultipliesTo.append_iff.mp
    ((multipliesTo_asPowers hs _ _ _ hy hpieces).perm (powers_append_leftovers_perm pieces).symm)
  have hall := ((multipliesTo_coefficient (factorsOfList expanded)).append
    (combineLikeBases_multipliesTo hs hp hpowers)).append hl
  rw [mul_assoc] at hall
  exact assemble_hasValue hs ((hs.steps_product hall hstepped).perm (ascending_perm _).symm) h

/-- **The product of factors has the value that they multiply to.** -/
theorem multiplyFactors_hasValue {fs : List (Expr ℚ)} {r : Expr ℚ} {x : ℚ}
    (hfs : MultipliesTo ρ fs x) (h : multiplyFactors solve fs = some r) : HasValue ρ r x := by
  have hothers := multipliesTo_dropOnes hfs
  unfold multiplyFactors at h
  split at h
  · rw [← Option.some.inj h]
    exact MultipliesTo.singleton_iff.mp hfs
  · split_ifs at h with hzero
    · rw [← Option.some.inj h, eq_zero_of_any_isZero hfs hzero, ExactScalar.zero_eq]
      exact .const ρ 0
    · split at h
      · next hnil =>
        rw [hnil] at hothers
        rw [← Option.some.inj h, ← hothers.prod_eq, ExactScalar.one_eq]
        exact .const ρ 1
      · next hone =>
        rw [hone] at hothers
        rw [← Option.some.inj h]
        exact MultipliesTo.singleton_iff.mp hothers
      · next a b htwo =>
        rw [htwo] at hothers
        have hx : x = a * b := by rw [← hothers.prod_eq]; simp
        rw [← Option.some.inj h, hx, ExactScalar.mul_eq]
        exact .const ρ _
      · have hsorted := hothers.perm (ascending_perm _).symm
        simp only at h
        split at h
        · next ts hdist => exact hs.sum (distribute?_sumsTo hsorted hdist) h
        · exact multiplyPowers_hasValue hs hsorted h

omit hs in
/-- **A product of two constants is a constant.** -/
theorem multiplyFactors_consts {a b : ℚ} {r : Expr ℚ}
    (h : multiplyFactors solve [.const a, .const b] = some r) : r = .const (a * b) := by
  have hzero (c : ℚ) : (Expr.const c).isZero = decide (c = 0) := by
    simp [Expr.isZero, Expr.isConstant, Expr.constant?]
  have hone (c : ℚ) : (Expr.const c).isOne = decide (c = 1) := by
    simp [Expr.isOne, Expr.isConstant, Expr.constant?]
  by_cases h0 : a = 0 ∨ b = 0
  · have hany : [Expr.const a, .const b].any Expr.isZero = true := by simpa [hzero] using h0
    have hab : a * b = 0 := mul_eq_zero.mpr h0
    simp only [multiplyFactors, if_pos hany, ExactScalar.zero_eq, Option.some.injEq] at h
    rw [← h, hab]
  · have hany : ¬[Expr.const a, .const b].any Expr.isZero = true := by simpa [hzero] using h0
    simp only [multiplyFactors, if_neg hany] at h
    by_cases ha : a = 1 <;> by_cases hb : b = 1 <;> simp_all

end Rule

end SymbolicAlgebra.Simplify
