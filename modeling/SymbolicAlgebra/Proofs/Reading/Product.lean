import SymbolicAlgebra.Proofs.Reading.Sum
import SymbolicAlgebra.Simplify.Node
import SymbolicAlgebra.Simplify.Product

/-! # Products and fractions are read as their factors are

Expanding fractions, flattening, multiplying the constants, collecting like bases and moving
negative powers below the line keep what a list of factors multiplies to, for every reading and a
sound solver of the subtasks, and so does the whole rule (`multiplyFactors_reads`). What is put
below the line is not zero, since it was a power with a negative exponent or a denominator; this is
why the new fraction has a value as well. Fractions are reduced to products (`stepFraction_reads`).

A group of like bases is read as the powers that were put into it. -/

namespace SymbolicAlgebra.Simplify

variable {α K : Type} [Scalar α] [Field K] {V : Expr α → K → Prop} (hV : Reading V)

section Rules

include hV

/-! ### Flattening and constants -/

theorem flatten_productReads :
    (∀ (e : Expr α) (x : K), V e x → ProductReads V (factorsOf e) x) ∧
      ∀ (fs : List (Expr α)) (x : K), ProductReads V fs x → ProductReads V (factorsOfList fs) x := by
  refine factorsOf.mutual_induct _ _ ?product ?other ?nil ?cons
  case product =>
    intro fs ih x h
    rw [factorsOf]
    exact ih x (hV.product_iff.mp h)
  case other =>
    intro e he x h
    rw [factorsOf.eq_2 e he]
    exact ProductReads.singleton_iff.mpr h
  case nil =>
    intro x h
    rwa [factorsOfList]
  case cons =>
    intro f fs ihf ihfs x h
    obtain ⟨a, b, hf, hfs, rfl⟩ := ProductReads.cons_iff.mp h
    rw [factorsOfList]
    exact .append (ihf a hf) (ihfs b hfs)

omit hV [Scalar α] in
/-- The constants of a list multiply apart from the other factors. -/
theorem constants_productReads : ∀ {fs : List (Expr α)} {x : K}, ProductReads V fs x →
    ∃ c y, ProductReads V ((constantsOf fs).map .const) c ∧ ProductReads V (nonConstants fs) y ∧
      x = c * y
  | [], x, h => ⟨1, 1, .nil, .nil, by rw [ProductReads.nil_iff.mp h, mul_one]⟩
  | f :: fs, x, h => by
    obtain ⟨a, b, hf, hfs, rfl⟩ := ProductReads.cons_iff.mp h
    obtain ⟨c, y, hc, hy, rfl⟩ := constants_productReads hfs
    cases f with
    | const k => exact ⟨a * c, y, .cons hf hc, hy, (mul_assoc a c y).symm⟩
    | _ => exact ⟨c, a * y, hc, .cons hf hy, mul_left_comm a c y⟩

theorem coefficient_reads {es : List (Expr α)} {x : K}
    (h : ProductReads V ((constantsOf es).map .const) x) : ProductReads V (coefficient es) x := by
  have htotal := hV.scalar_product h
  unfold coefficient
  simp only
  split_ifs with hone
  · exact ProductReads.nil_iff.mpr (hV.eq htotal hV.one hone)
  · exact ProductReads.singleton_iff.mpr htotal

theorem dropOnes_reads : ∀ {fs : List (Expr α)} {x : K}, ProductReads V fs x →
    ProductReads V (fs.filter fun f => !f.isOne) x
  | [], x, h => h
  | f :: fs, x, h => by
    obtain ⟨a, b, hf, hfs, rfl⟩ := ProductReads.cons_iff.mp h
    have ih := dropOnes_reads hfs
    by_cases hone : f.isOne = true
    · rw [List.filter_cons_of_neg (by simp [hone]), hV.eq_one_of_isOne hf hone, one_mul]
      exact ih
    · rw [List.filter_cons_of_pos (by simp [hone])]
      exact .cons hf ih

/-- **Distribution keeps the value.** -/
theorem distribute?_reads {fs ts : List (Expr α)} {x : K} (hfs : ProductReads V fs x)
    (h : distribute? fs = some ts) : SumReads V ts x := by
  unfold distribute? at h
  split at h
  · next other first second =>
    split_ifs at h
    obtain rfl := Option.some.inj h
    obtain ⟨a, s, ha, hsum, rfl⟩ := ProductReads.cons_iff.mp hfs
    obtain ⟨b, r, hb, hr, rfl⟩ :=
      SumReads.cons_iff.mp (hV.sum_iff.mp (ProductReads.singleton_iff.mp hsum))
    have hc := SumReads.singleton_iff.mp hr
    rw [mul_add]
    exact .cons (hV.productOf (.pair ha hb)) (SumReads.singleton_iff.mpr (hV.productOf (.pair ha hc)))
  · cases h

/-! ### Reciprocals -/

variable {solve : Solver α} (hs : Sound V solve)
include hs

theorem reciprocal_reads :
    (∀ (e : Expr α) (x : K) (fs : List (Expr α)), V e x → x ≠ 0 → reciprocal solve e = some fs →
      ProductReads V fs x⁻¹) ∧
    ∀ (es : List (Expr α)) (x : K) (fs : List (Expr α)), ProductReads V es x → x ≠ 0 →
      reciprocals solve es = some fs → ProductReads V fs x⁻¹ := by
  refine reciprocal.mutual_induct _ _ ?power ?product ?other ?nil ?cons
  case power =>
    intro b e x fs he hx h
    simp only [reciprocal, Option.bind_eq_bind, Option.bind_eq_some_iff, Option.some.injEq] at h
    obtain ⟨negated, hnegated, rfl⟩ := h
    exact ProductReads.singleton_iff.mpr (hs.negate he hx hnegated)
  case product =>
    intro es ih x fs he hx h
    exact ih x fs (hV.product_iff.mp he) hx (by rwa [reciprocal] at h)
  case other =>
    intro e hpower hproduct x fs he hx h
    rw [reciprocal.eq_3 solve e hpower hproduct, Option.some.injEq] at h
    rw [← h]
    exact ProductReads.singleton_iff.mpr (hV.recip he hx)
  case nil =>
    intro x fs hes hx h
    rw [reciprocals, Option.some.injEq] at h
    rw [← h, ProductReads.nil_iff.mp hes, inv_one]
    exact .nil
  case cons =>
    intro e es ihe ihes x fs hes hx h
    simp only [reciprocals, Option.bind_eq_bind, Option.bind_eq_some_iff, Option.some.injEq] at h
    obtain ⟨first, hfirst, rest, hrest, rfl⟩ := h
    obtain ⟨a, b, ha, hb, rfl⟩ := ProductReads.cons_iff.mp hes
    rw [mul_inv]
    exact .append (ihe a first ha (left_ne_zero_of_mul hx) hfirst)
      (ihes b rest hb (right_ne_zero_of_mul hx) hrest)

theorem expandFractions_reads : ∀ (es : List (Expr α)) (x : K) (fs : List (Expr α)),
    ProductReads V es x → expandFractions solve es = some fs → ProductReads V fs x := by
  refine expandFractions.induct _ ?nil ?fraction ?other
  case nil =>
    intro x fs hes h
    rw [expandFractions, Option.some.injEq] at h
    rwa [← h]
  case fraction =>
    intro num den es ih x fs hes h
    simp only [expandFractions, Option.bind_eq_bind, Option.bind_eq_some_iff,
      Option.some.injEq] at h
    obtain ⟨below, hbelow, rest, hrest, rfl⟩ := h
    obtain ⟨q, b, hq, hb, rfl⟩ := ProductReads.cons_iff.mp hes
    obtain ⟨y, z, hy, hz, hne, rfl⟩ := hV.fraction_iff.mp hq
    rw [div_eq_mul_inv]
    exact .append (.cons hy ((reciprocal_reads hV hs).1 den z below hz hne hbelow))
      (ih b rest hb hrest)
  case other =>
    intro e es he ih x fs hes h
    rw [expandFractions.eq_3 solve e es he] at h
    simp only [Option.bind_eq_bind, Option.bind_eq_some_iff, Option.some.injEq] at h
    obtain ⟨rest, hrest, rfl⟩ := h
    obtain ⟨a, b, ha, hb, rfl⟩ := ProductReads.cons_iff.mp hes
    exact .cons ha (ih b rest hb hrest)

theorem asPowers_reads : ∀ (es : List (Expr α)) (x : K) (fs : List (Expr α)),
    ProductReads V es x → asPowers solve es = some fs → ProductReads V fs x := by
  refine asPowers.induct _ ?nil ?power ?other
  case nil =>
    intro x fs hes h
    rw [asPowers, Option.some.injEq] at h
    rwa [← h]
  case power =>
    intro b e es ih x fs hes h
    simp only [asPowers, Option.bind_eq_bind, Option.bind_eq_some_iff, Option.some.injEq] at h
    obtain ⟨f, hf, rest, hrest, rfl⟩ := h
    obtain ⟨y, z, hy, hz, rfl⟩ := ProductReads.cons_iff.mp hes
    exact .cons (hs.step hy hf) (ih z rest hz hrest)
  case other =>
    intro e es he ih x fs hes h
    rw [asPowers.eq_3 solve e es he] at h
    simp only [Option.bind_eq_bind, Option.bind_eq_some_iff, Option.some.injEq] at h
    obtain ⟨b, hb, rest, hrest, rfl⟩ := h
    obtain ⟨y, z, hy, hz, rfl⟩ := ProductReads.cons_iff.mp hes
    exact .cons (hV.power_one (hs.step hy hb)) (ih z rest hz hrest)

end Rules

/-! ### Like bases -/

namespace LikeBases

/-- The powers that a group is read as. -/
def members (g : LikeBases α) : List (Expr α) := g.exponents.map fun e => .power g.base e

include hV in
/-- **A power joins one group and changes nothing else.** -/
theorem members_add_perm (b e : Expr α) : ∀ gs : List (LikeBases α),
    ((add b e gs).flatMap members).Perm (gs.flatMap members ++ [.power b e])
  | [] => .refl _
  | g :: gs => by
    unfold add
    split_ifs with heq
    · obtain rfl := hV.eq_of_beq heq
      simp only [List.flatMap_cons, members, List.map_append, List.append_assoc]
      exact List.Perm.append_left _ List.perm_append_comm
    · simp only [List.flatMap_cons, List.append_assoc]
      exact List.Perm.append_left _ (members_add_perm b e gs)

include hV in
theorem members_foldl_add_perm : ∀ (ps : List (Expr α × Expr α)) (gs : List (LikeBases α)),
    ((ps.foldl (fun groups p => add p.1 p.2 groups) gs).flatMap members).Perm
      (gs.flatMap members ++ ps.map fun p => .power p.1 p.2)
  | [], gs => by simp
  | p :: ps, gs => by
    have hfirst := (members_add_perm hV p.1 p.2 gs).append_right
      (ps.map fun p => Expr.power p.1 p.2)
    rw [List.append_assoc] at hfirst
    rw [List.foldl_cons, List.map_cons]
    exact (members_foldl_add_perm ps _).trans hfirst

include hV in
theorem members_collect_perm (ps : List (Expr α × Expr α)) :
    ((collect ps).flatMap members).Perm (ps.map fun p => .power p.1 p.2) :=
  members_foldl_add_perm hV ps []

theorem exponents_add {b e : Expr α} : ∀ {gs : List (LikeBases α)},
    (∀ g ∈ gs, g.exponents ≠ []) → ∀ g ∈ add b e gs, g.exponents ≠ []
  | [], _, g, hg => by
    rw [add, List.mem_singleton] at hg
    simp [hg]
  | g₀ :: gs, h, g, hg => by
    obtain ⟨h₀, hrest⟩ := List.forall_mem_cons.mp h
    unfold add at hg
    split_ifs at hg
    · rcases List.mem_cons.mp hg with rfl | hg
      · simp
      · exact hrest g hg
    · rcases List.mem_cons.mp hg with rfl | hg
      · exact h₀
      · exact exponents_add hrest g hg

theorem exponents_collect (ps : List (Expr α × Expr α)) : ∀ g ∈ collect ps, g.exponents ≠ [] :=
  List.foldlRecOn (motive := fun gs : List (LikeBases α) => ∀ g ∈ gs, g.exponents ≠ []) ps _
    (by simp) fun _ ih _ _ => exponents_add ih

variable {solve : Solver α} (hs : Sound V solve)
include hs

theorem toPowers_reads : ∀ {gs : List (LikeBases α)} {fs : List (Expr α)} {x : K},
    (∀ g ∈ gs, g.exponents ≠ []) → ProductReads V (gs.flatMap members) x →
      toPowers solve gs = some fs → ProductReads V fs x
  | [], fs, x, _, hgs, h => by
    rw [toPowers, Option.some.injEq] at h
    rwa [← h]
  | g :: gs, fs, x, hne, hgs, h => by
    simp only [toPowers, Option.bind_eq_bind, Option.bind_eq_some_iff, Option.some.injEq] at h
    obtain ⟨e, he, rest, hrest, rfl⟩ := h
    rw [List.flatMap_cons] at hgs
    obtain ⟨a, b, ha, hb, rfl⟩ := ProductReads.append_iff.mp hgs
    obtain ⟨hg, hgs'⟩ := List.forall_mem_cons.mp hne
    exact .cons (hs.collect hg ha he) (toPowers_reads hgs' hb hrest)

end LikeBases

omit [Scalar α] in
/-- The powers of a list, with the factors that are none, are its factors. -/
theorem powers_leftovers_perm (fs : List (Expr α)) :
    ((fs.filterMap power?).map (fun p => Expr.power p.1 p.2) ++
      fs.filter fun e => (power? e).isNone).Perm fs := by
  induction fs with
  | nil => exact .refl _
  | cons f fs ih =>
    by_cases hp : ∃ b e, f = .power b e
    · obtain ⟨b, e, rfl⟩ := hp
      exact ih.cons (.power b e)
    · have hnone : power? f = none := by
        unfold power?
        split
        · exact absurd ⟨_, _, rfl⟩ hp
        · rfl
      rw [List.filterMap_cons_none hnone, List.filter_cons_of_pos (by simp [hnone])]
      exact List.perm_middle.trans (ih.cons f)

/-! ### The rules -/

section Rule
variable {solve : Solver α} (hs : Sound V solve)
include hV hs

theorem combineLikeBases_reads {ps : List (Expr α × Expr α)} {fs : List (Expr α)} {x : K}
    (hps : ProductReads V (ps.map fun p => .power p.1 p.2) x)
    (h : combineLikeBases solve ps = some fs) : ProductReads V fs x :=
  LikeBases.toPowers_reads hs (LikeBases.exponents_collect ps)
    (hps.perm (LikeBases.members_collect_perm hV ps)) h

/-- Powers below the line are not zero, and their denominators are one over them. -/
theorem denominators_reads : ∀ {fs ds : List (Expr α)} {x : K}, ProductReads V fs x →
    (∀ f ∈ fs, isBelow f = true) → denominators solve fs = some ds →
      x ≠ 0 ∧ ProductReads V ds x⁻¹
  | [], ds, x, hfs, _, h => by
    rw [denominators, Option.some.injEq] at h
    rw [← h, ProductReads.nil_iff.mp hfs, inv_one]
    exact ⟨one_ne_zero, .nil⟩
  | f :: fs, ds, x, hfs, hbelow, h => by
    obtain ⟨a, y, ha, hy, rfl⟩ := ProductReads.cons_iff.mp hfs
    obtain ⟨hf, hrest⟩ := List.forall_mem_cons.mp hbelow
    obtain ⟨b, e, rfl⟩ : ∃ b e, f = .power b e := by
      unfold isBelow at hf
      split at hf
      · exact ⟨_, _, rfl⟩
      · cases hf
    have ha0 : a ≠ 0 := hV.below ha hf
    simp only [denominators, Option.bind_eq_bind, Option.bind_eq_some_iff, Option.some.injEq] at h
    obtain ⟨negated, hnegated, d, hd, ds', hds, rfl⟩ := h
    obtain ⟨hy0, hds⟩ := denominators_reads hy hrest hds
    rw [mul_inv]
    exact ⟨mul_ne_zero ha0 hy0, .cons (hs.step (hs.negate ha ha0 hnegated) hd) hds⟩

theorem assemble_reads {fs : List (Expr α)} {r : Expr α} {x : K} (hfs : ProductReads V fs x)
    (h : assemble solve fs = some r) : V r x := by
  obtain ⟨y, z, hbelow, habove, rfl⟩ := ProductReads.append_iff.mp
    (hfs.perm (List.filter_append_perm isBelow fs))
  unfold assemble at h
  simp only at h
  split_ifs at h with hnone hone
  · -- nothing is below the line
    rw [List.isEmpty_iff] at hnone
    rw [hnone] at hbelow
    rw [← Option.some.inj h, ProductReads.nil_iff.mp hbelow, one_mul]
    exact hV.downgrade (hV.product_iff.mpr habove)
  all_goals
    simp only [Option.bind_eq_bind, Option.bind_eq_some_iff, Option.some.injEq] at h
    obtain ⟨dens, hdens, num, hnum, den, hden, rfl⟩ := h
    obtain ⟨hy, hds⟩ := denominators_reads hV hs hbelow (fun f hf => (List.mem_filter.mp hf).2) hdens
    have hden := hs.product hds hden
    suffices hnum : V num z by
      have hfraction := hV.fraction hnum hden (inv_ne_zero hy)
      rwa [div_inv_eq_mul, mul_comm] at hfraction
  · -- everything is below the line
    rw [List.isEmpty_iff] at hone
    rw [hone] at habove
    rw [← hnum, ProductReads.nil_iff.mp habove]
    exact hV.one
  · exact hs.product habove hnum

theorem multiplyPowers_reads {fs : List (Expr α)} {r : Expr α} {x : K}
    (hfs : ProductReads V fs x) (h : multiplyPowers solve fs = some r) : V r x := by
  simp only [multiplyPowers, Option.bind_eq_bind, Option.bind_eq_some_iff] at h
  obtain ⟨expanded, hexpanded, pieces, hpieces, powers, hpowers, stepped, hstepped, h⟩ := h
  have hflat := (flatten_productReads hV).2 _ _ (expandFractions_reads hV hs _ _ _ hfs hexpanded)
  obtain ⟨c, y, hc, hy, rfl⟩ := constants_productReads hflat
  obtain ⟨p, l, hp, hl, rfl⟩ := ProductReads.append_iff.mp
    ((asPowers_reads hV hs _ _ _ hy hpieces).perm (powers_leftovers_perm pieces))
  have hall := ((coefficient_reads hV hc).append (combineLikeBases_reads hV hs hp hpowers)).append hl
  rw [mul_assoc] at hall
  exact assemble_reads hV hs ((hs.steps_product hall hstepped).perm (StableSort.sort_perm _ _)) h

/-- **The product of factors is read as what they multiply to.** -/
theorem multiplyFactors_reads {fs : List (Expr α)} {r : Expr α} {x : K}
    (hfs : ProductReads V fs x) (h : multiplyFactors solve fs = some r) : V r x := by
  have hothers := dropOnes_reads hV hfs
  unfold multiplyFactors at h
  split at h
  · rw [← Option.some.inj h]
    exact ProductReads.singleton_iff.mp hfs
  · split_ifs at h with hzero
    · obtain ⟨f, hf, hf0⟩ := List.any_eq_true.mp hzero
      rw [← Option.some.inj h, hfs.eq_zero_of_mem hf fun y hy => hV.eq_zero_of_isZero hy hf0]
      exact hV.zero
    · split at h
      · next hnil =>
        rw [hnil] at hothers
        rw [← Option.some.inj h, ProductReads.nil_iff.mp hothers]
        exact hV.one
      · next hone =>
        rw [hone] at hothers
        rw [← Option.some.inj h]
        exact ProductReads.singleton_iff.mp hothers
      · next a b htwo =>
        rw [htwo] at hothers
        obtain ⟨y, z, ha, hb, rfl⟩ := ProductReads.cons_iff.mp hothers
        rw [← Option.some.inj h]
        exact hV.mul ha (ProductReads.singleton_iff.mp hb)
      · have hsorted : ProductReads V (Expr.ascending _) x := hothers.perm (StableSort.sort_perm _ _)
        simp only at h
        split at h
        · next ts hdist => exact hs.sum (distribute?_reads hV hsorted hdist) h
        · exact multiplyPowers_reads hV hs hsorted h

/-! ### Fractions -/

theorem multiplyReciprocal_reads {a b r : Expr α} {x y : K} (ha : V a x) (hb : V b y)
    (hy : y ≠ 0) (h : multiplyReciprocal solve a b = some r) : V r (x / y) := by
  simp only [multiplyReciprocal, Option.bind_eq_bind, Option.bind_eq_some_iff] at h
  obtain ⟨inverse, hinverse, h⟩ := h
  rw [div_eq_mul_inv]
  exact hs.product (.pair ha (hs.step (hV.recip hb hy) hinverse)) h

theorem divide_reads {a b r : Expr α} {x y : K} (ha : V a x) (hb : V b y) (hy : y ≠ 0)
    (h : divide solve a b = some r) : V r (x / y) := by
  unfold divide at h
  split at h
  · next n m c d =>
    simp only [Option.bind_eq_bind, Option.bind_eq_some_iff, Option.some.injEq] at h
    obtain ⟨n', hn', d', hd', num, hnum, m', hm', c', hc', den, hden, rfl⟩ := h
    obtain ⟨x₁, x₂, hn, hm, hx₂, rfl⟩ := hV.fraction_iff.mp ha
    obtain ⟨y₁, y₂, hc, hd, hy₂, rfl⟩ := hV.fraction_iff.mp hb
    have hy₁ : y₁ ≠ 0 := (div_ne_zero_iff.mp hy).1
    rw [div_div_div_eq]
    exact hV.fraction (hs.product (.pair (hs.step hn hn') (hs.step hd hd')) hnum)
      (hs.product (.pair (hs.step hm hm') (hs.step hc hc')) hden) (mul_ne_zero hx₂ hy₁)
  · next n m hden =>
    simp only [Option.bind_eq_bind, Option.bind_eq_some_iff, Option.some.injEq] at h
    obtain ⟨n', hn', m', hm', den, hden, rfl⟩ := h
    obtain ⟨x₁, x₂, hn, hm, hx₂, rfl⟩ := hV.fraction_iff.mp ha
    rw [div_div]
    exact hV.fraction (hs.step hn hn') (hs.product (.pair (hs.step hm hm') hb) hden)
      (mul_ne_zero hx₂ hy)
  · next c d hnum =>
    simp only [Option.bind_eq_bind, Option.bind_eq_some_iff, Option.some.injEq] at h
    obtain ⟨d', hd', num, hnum, c', hc', rfl⟩ := h
    obtain ⟨y₁, y₂, hc, hd, hy₂, rfl⟩ := hV.fraction_iff.mp hb
    rw [div_div_eq_mul_div]
    exact hV.fraction (hs.product (.pair ha (hs.step hd hd')) hnum) (hs.step hc hc')
      (div_ne_zero_iff.mp hy).1
  · next c d =>
    split_ifs at h
    · rw [← Option.some.inj h]
      exact hV.div ha hb hy
    · exact multiplyReciprocal_reads hV hs ha hb hy h
  · exact multiplyReciprocal_reads hV hs ha hb hy h

/-- **A fraction is read as the quotient.** -/
theorem stepFraction_reads {a b r : Expr α} {x y : K} (ha : V a x) (hb : V b y) (hy : y ≠ 0)
    (h : stepFraction solve a b = some r) : V r (x / y) := by
  simp only [stepFraction, Option.bind_eq_bind, Option.bind_eq_some_iff] at h
  obtain ⟨a', ha', b', hb', h⟩ := h
  exact divide_reads hV hs (hs.step ha ha') (hs.step hb hb') hy h

end Rule

end SymbolicAlgebra.Simplify
