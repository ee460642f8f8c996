import SymbolicAlgebra.Proofs.Doubled.Steady

/-! # Fractions within fractions

No part of a fixed fraction is a fraction (`Fixed.not_nested`). If one part is a fraction then so is
the other one, and multiplying across has to lead back: the product of the first numerator and the
second denominator to the first fraction, and that of the other two parts to the second one. Neither
loses bulk, so in either product the second factor is a power with a negative exponent that goes
below the line, where its exponent is negated. But what has been negated twice is not negative. -/

namespace SymbolicAlgebra

open SymbolicAlgebra.Expr (Same Fixed bulk Within TameBelow)

variable {α : Type} [Scalar α]

/-! ### Multiplying across -/

namespace Expr.Fixed

variable [CongruentScalar α]

/-- A fixed fraction whose numerator is a fraction has a fraction as its denominator. -/
theorem den_fraction {b c d : Expr α} (h : (fraction (fraction b c) d).Fixed) :
    ∃ x y, d = fraction x y := by
  by_contra hnone
  obtain ⟨depth, r, hr, hsame⟩ := h.solved
  change Simplify.stepFraction (Simplify.solve depth) (fraction b c) d = some r at hr
  simp only [Simplify.stepFraction, Option.bind_eq_bind, Option.bind_eq_some_iff] at hr
  obtain ⟨a', ha, d', hd, hr⟩ := hr
  have hd' := (h.den.step hd).symm.not_binary (f := .fraction) fun x y heq => hnone ⟨x, y, heq⟩
  have ha' := h.num.step ha
  cases ha'.node with
  | @binary _ b' c' _ _ hb hc =>
    rw [Simplify.divide.eq_2 _ _ _ _ hd'] at hr
    simp only [Option.bind_eq_bind, Option.bind_eq_some_iff, Option.some.injEq] at hr
    obtain ⟨num, hnum, _, -, _, -, rfl⟩ := hr
    cases hsame.node with
    | binary _ hsame _ =>
      have hfixed : b'.Fixed := (h.num.same ha'.symm).num
      have hsize := ((hfixed.step hnum).symm.trans hsame).size_eq
      rw [size, hb.size_eq] at hsize
      omega

/-- **The parts of a fixed fraction of fractions** are multiplied across to the same fractions. -/
theorem products {a b c d : Expr α} (h : (fraction (fraction a b) (fraction c d)).Fixed) :
    (∃ r, (Task.product [a, d]).ComesTo r ∧ Same r (fraction a b)) ∧
      ∃ r, (Task.product [b, c]).ComesTo r ∧ Same r (fraction c d) := by
  obtain ⟨depth, r, hr, hsame⟩ := h.solved
  change Simplify.stepFraction (Simplify.solve depth) (fraction a b) (fraction c d) = some r at hr
  simp only [Simplify.stepFraction, Option.bind_eq_bind, Option.bind_eq_some_iff] at hr
  obtain ⟨num, hnum, den, hden, hr⟩ := hr
  have hnum' := h.num.step hnum
  have hden' := h.den.step hden
  cases hnum'.node with
  | @binary _ a₁ b₁ _ _ ha₁ hb₁ =>
    cases hden'.node with
    | @binary _ c₁ d₁ _ _ hc₁ hd₁ =>
      simp only [Simplify.divide, Option.bind_eq_bind, Option.bind_eq_some_iff,
        Option.some.injEq] at hr
      obtain ⟨a₂, ha₂, d₂, hd₂, x, hx, b₂, hb₂, c₂, hc₂, y, hy, rfl⟩ := hr
      have ha := ((h.num.num.same ha₁.symm).step ha₂).trans ha₁
      have hb := ((h.num.den.same hb₁.symm).step hb₂).trans hb₁
      have hc := ((h.den.num.same hc₁.symm).step hc₂).trans hc₁
      have hd := ((h.den.den.same hd₁.symm).step hd₂).trans hd₁
      obtain ⟨x', hx', hxx'⟩ := Task.ComesTo.of_same (t := .product [a₂, d₂]) ⟨depth, hx⟩
        (.product (.cons ha (.cons hd .nil)))
      obtain ⟨y', hy', hyy'⟩ := Task.ComesTo.of_same (t := .product [b₂, c₂]) ⟨depth, hy⟩
        (.product (.cons hb (.cons hc .nil)))
      cases hsame.node with
      | binary _ hx hy => exact ⟨⟨x', hx', hxx'.symm.trans hx⟩, y', hy', hyy'.symm.trans hy⟩

end Expr.Fixed

/-! ### Bases of what is multiplied without loss -/

namespace Simplify

namespace LikeBases

variable [OrderedScalar α]

theorem mem_collect {ps : List (Expr α × Expr α)} {g : LikeBases α} (hg : g ∈ collect ps)
    {x : Expr α} (hx : x ∈ g.exponents) : ∃ p ∈ ps, Expr.Same g.base p.1 ∧ p.2 = x := by
  have hclasses := isClasses_classes equivalence_alikePowers ps
  rw [collect_eq_classes] at hg
  obtain ⟨c, hc, rfl⟩ := List.mem_map.mp hg
  obtain ⟨p, hp, rfl⟩ := List.mem_map.mp hx
  rw [hclasses.members c hc] at hp
  obtain ⟨hmem, halike⟩ := List.mem_filter.mp hp
  exact ⟨p, hmem, halike, rfl⟩

/-- The groups hold as many exponents as there are powers. -/
theorem sum_length_exponents (ps : List (Expr α × Expr α)) :
    ((collect ps).map fun g => g.exponents.length).sum = ps.length := by
  rw [collect_eq_classes, List.map_map]
  have hperm := (isClasses_classes equivalence_alikePowers ps).perm.length_eq
  rw [List.length_flatMap] at hperm
  rw [← hperm]
  congr 1
  exact List.map_congr_left fun c _ => List.length_map _

end LikeBases

variable [StandardScalar α] {n a depth : Nat} {fs flat pieces powers stepped : List (Expr α)}

/-- **If nothing is lost, then factors have different bases.** -/
theorem Collects.bases_distinct (hs : Bounded n (solve (α := α) depth))
    (h : Collects n a (solve depth) fs flat pieces powers stepped)
    (hprod : (fs.map bulk).prod ≤ (stepped.map bulk).prod)
    (hfixed : ∀ f ∈ nonConstants flat, f.Fixed) :
    (nonConstants flat).Pairwise fun f g => (f.base == g.base) = false := by
  obtain ⟨hbases, hleft⟩ := asPowers_bases _ pieces hfixed h.asPowers
  have htwo : ∀ p ∈ pieces, 2 ≤ p.bulk := fun p hp => by
    obtain ⟨f, hf, hbulk⟩ := (h.pieces_bulk hprod).exists_left p hp
    have hconst : f.isConst = false := by simpa using (List.mem_filter.mp hf).2
    rw [hbulk]
    exact (hfixed f hf).two_le_bulk (Expr.isConstant_of_not_const hconst _)
  have hsingle : ∀ g ∈ LikeBases.collect (pieces.filterMap power?), g.exponents.length = 1 := by
    have hne := LikeBases.exponents_collect (pieces.filterMap power?)
    intro g hg
    refine Nat.le_antisymm (Nat.le_of_not_lt fun hmany => ?_) (List.length_pos_iff.mpr (hne g hg))
    have hlt := LikeBases.toPowers_lt hs hne (LikeBases.collect_within
      (within_of_mem_powers (Shrinks.within h.pieces_shrink))) h.combined g hg hmany fun x hx => by
        obtain ⟨p, hp, hbase, rfl⟩ := LikeBases.mem_collect hg hx
        obtain ⟨e, he, hpower⟩ := List.mem_filterMap.mp hp
        have hpiece : 2 ≤ (Expr.power p.1 p.2).bulk := power?_eq_some hpower ▸ htwo e he
        rw [(Same.binary .power hbase (.refl p.2)).bulk_eq]
        exact hpiece
    have hle := h.powers_bulk hprod
    rw [LikeBases.heft_collect] at hlt
    omega
  have hlength : (pieces.filterMap power?).length ≤
      (LikeBases.collect (pieces.filterMap power?)).length := by
    rw [← LikeBases.sum_length_exponents, List.map_congr_left hsingle]
    simp
  refine hbases.pairwise ((LikeBases.length_collect _).2 hlength) ?_
  intro p f q g hp hq hpq
  refine Bool.eq_false_iff.mpr fun heq => Bool.eq_false_iff.mp hpq ?_
  exact (hp.trans heq).trans hq.symm

/-! ### Factors of fixed expressions -/

omit [StandardScalar α] in
theorem expandFractions_of_not_fraction {solve : Solver α} {es : List (Expr α)}
    (h : ∀ e ∈ es, e.isFraction = false) : expandFractions solve es = some es := by
  induction es with
  | nil => rfl
  | cons e es ih =>
    obtain ⟨he, hes⟩ := List.forall_mem_cons.mp h
    have hfraction : ∀ x y, e = .fraction x y → False := by
      rintro x y rfl
      cases he
    rw [expandFractions.eq_3 _ _ _ hfraction, ih hes]
    rfl

/-- A fixed expression other than a fraction is taken apart into its factors, or not at all. -/
theorem factorsOf_cases {e : Expr α} (h : e.Fixed) (hfraction : e.isFraction = false) :
    (∃ fs, e = .product fs ∧ factorsOf e = fs) ∨ (e.isCompound = false ∧ factorsOf e = [e]) := by
  by_cases hproduct : ∃ fs, e = .product fs
  · obtain ⟨fs, rfl⟩ := hproduct
    exact .inl ⟨fs, rfl, factorsOfList_of_not_compound h.collectedFactors.not_compound⟩
  · have hcompound : e.isCompound = false := by
      unfold Expr.isCompound
      split
      · cases hfraction
      · exact absurd ⟨_, rfl⟩ hproduct
      · rfl
    exact .inr ⟨hcompound, factorsOf_of_not_compound hcompound⟩

theorem factorsOf_plain {e f : Expr α} (h : e.Fixed) (hfraction : e.isFraction = false)
    (hf : f ∈ factorsOf e) : f.Fixed ∧ f.isCompound = false := by
  rcases factorsOf_cases h hfraction with ⟨fs, rfl, heq⟩ | ⟨hcompound, heq⟩
  · rw [heq] at hf
    exact ⟨h.child hf, h.collectedFactors.not_compound f hf⟩
  · rw [heq, List.mem_singleton] at hf
    exact hf ▸ ⟨h, hcompound⟩

/-- A factor that belongs below the line stands alone. -/
theorem factorsOf_below {e f : Expr α} (h : e.Fixed) (hfraction : e.isFraction = false)
    (hf : f ∈ factorsOf e) (hbelow : isBelow f = true) : f = e := by
  rcases factorsOf_cases h hfraction with ⟨fs, rfl, heq⟩ | ⟨-, heq⟩
  · rw [heq] at hf
    rw [h.collectedFactors.above f hf] at hbelow
    cases hbelow
  · rw [heq, List.mem_singleton] at hf
    exact hf

/-! ### Products without loss -/

/-- What is put together when nothing is lost: a coefficient and plain factors of different bases,
which are factors of what is multiplied. -/
structure Assembles (fs : List (Expr α)) (r : Expr α) (depth : Nat) (fs' es gs : List (Expr α)) :
    Prop where
  assembled : assemble (solve depth) fs' = some r
  same : List.Forall₂ Same fs' (Expr.ascending (coefficient es ++ gs))
  plain : ∀ g ∈ gs, PlainFactor g
  origin : ∀ g ∈ gs, ∃ f ∈ fs, g ∈ factorsOf f
  bases : gs.Pairwise fun f g => (f.base == g.base) = false
  bulk_le : ((coefficient es ++ gs).map bulk).prod ≤ (fs.map bulk).prod

/-- **A product without loss** that is neither a constant nor one of the factors is put together of
their factors. -/
theorem exists_assembles {r : Expr α} (hfs : ∀ f ∈ fs, f.Fixed ∧ f.isFraction = false)
    (hr : (Task.product fs).ComesTo r) (hconst : r.isConst = false) (hmem : r ∉ fs)
    (hbulk : (fs.map bulk).prod ≤ r.bulk) :
    ∃ depth fs' es gs, Assembles fs r depth fs' es gs := by
  obtain ⟨depth | depth, hr⟩ := hr
  · cases hr
  have hn := Expr.tameBelow (α := α) (Expr.product fs).size
  have hsorted : ∀ f ∈ Expr.ascending (fs.filter fun f => !f.isOne),
      f ∈ fs ∧ f.isOne = false := fun f => Expr.mem_sorted_nonones
  have hwithin : ∀ f ∈ Expr.ascending (fs.filter fun f => !f.isOne),
      Within (Expr.product fs).size (Expr.product fs).size f := fun f hf =>
    (hfs f (hsorted f hf).1).1.within hn (Expr.size_lt_of_mem_children (e := .product fs) (hsorted f hf).1)
  have hnonones := Expr.prod_bulk_nonones fs
  rcases multiplyFactors_cases hr with hconst' | hmem' | ⟨-, ⟨ts, hts, hsum⟩ | hpowers⟩
  · rw [hconst] at hconst'
    cases hconst'
  · exact absurd hmem' hmem
  · -- distributing loses bulk
    obtain ⟨f, hf, hdistributed⟩ := distribute?_bulk hts
    obtain ⟨hf, hone⟩ := hsorted f hf
    have htwo := (hfs f hf).1.two_le_bulk hone
    have hle := ((bounded_solve hn depth).sum (distribute?_within hwithin hts) hsum).2
    omega
  · obtain ⟨flat, pieces, powers, stepped, hcollects, hassemble⟩ :=
      multiplyPowers_collects (bounded_solve hn depth) hwithin hpowers
    have hstepped := Shrinks.within hcollects.stepped_shrink
    have hassembled := (assemble_shrinks (bounded_solve hn depth)
      (fun f hf => hstepped f (StableSort.mem_sort.mp hf)) hassemble).2
    rw [prod_bulk_perm (StableSort.sort_perm _ stepped)] at hassembled
    have hprod := (hnonones.trans hbulk).trans hassembled
    have hexpand : expandFractions (solve depth) (Expr.ascending (fs.filter fun f => !f.isOne)) =
        some (Expr.ascending (fs.filter fun f => !f.isOne)) :=
      expandFractions_of_not_fraction fun f hf => (hfs f (hsorted f hf).1).2
    have hflat : flat = factorsOfList (Expr.ascending (fs.filter fun f => !f.isOne)) := by
      obtain ⟨es, hes, rfl⟩ := hcollects.expanded
      rw [hexpand, Option.some.injEq] at hes
      rw [hes]
    have horigin : ∀ g ∈ nonConstants flat, ∃ f ∈ fs, g ∈ factorsOf f := fun g hg => by
      rw [hflat] at hg
      obtain ⟨f, hf, hg⟩ := mem_factorsOfList.mp (List.mem_of_mem_filter hg)
      exact ⟨f, (hsorted f hf).1, hg⟩
    have hplain : ∀ g ∈ nonConstants flat, PlainFactor g := fun g hg => by
      obtain ⟨f, hf, hgf⟩ := horigin g hg
      obtain ⟨hfixed, hcompound⟩ := factorsOf_plain (hfs f hf).1 (hfs f hf).2 hgf
      exact ⟨hfixed, by simpa using (List.mem_filter.mp hg).2, hcompound⟩
    have hbases := hcollects.bases_distinct (bounded_solve hn depth) hprod
      fun g hg => (hplain g hg).fixed
    rw [hflat] at hplain hbases
    obtain ⟨fs', hassemble, hsame⟩ := multiplyPowers_plain hexpand hplain hbases hpowers
    refine ⟨depth, fs', flat, nonConstants flat, hassemble, hflat ▸ hsame, hflat ▸ hplain, horigin,
      hflat ▸ hbases, ?_⟩
    rw [List.map_append, List.prod_append]
    refine (Nat.mul_le_mul_right _ (prod_bulk_coefficient flat)).trans ?_
    exact ((prod_bulk_filter Expr.isConst flat).symm.le.trans hcollects.flat_le).trans hnonones

omit [StandardScalar α] in
theorem not_below_of_isConst {e : Expr α} (h : e.isConst = true) : isBelow e = false := by
  obtain ⟨c, rfl⟩ := Expr.isConst_iff_exists.mp h
  rfl

omit [StandardScalar α] in
theorem not_below_downgrade {fs : List (Expr α)} (h : ∀ f ∈ fs, isBelow f = false) :
    isBelow (Expr.product fs).downgrade = false := by
  rcases Expr.downgrade_product_cases fs with hconst | ⟨f, rfl, hf⟩ | ⟨-, hproduct⟩
  · exact not_below_of_isConst hconst
  · rw [hf]
    exact h f List.mem_cons_self
  · rw [hproduct]
    rfl

/-- **What is multiplied without loss and does not belong below the line** comes to what does not
belong there. -/
theorem not_below_of_lossless {r : Expr α} (hfs : ∀ f ∈ fs, f.Fixed ∧ f.isFraction = false)
    (habove : ∀ f ∈ fs, isBelow f = false) (hr : (Task.product fs).ComesTo r)
    (hbulk : (fs.map bulk).prod ≤ r.bulk) : isBelow r = false := by
  rcases hconst : r.isConst
  · by_cases hmem : r ∈ fs
    · exact habove r hmem
    · obtain ⟨depth, fs', es, gs, h⟩ := exists_assembles hfs hr hconst hmem hbulk
      have hgs : ∀ g ∈ gs, isBelow g = false := fun g hg => Bool.eq_false_iff.mpr fun hbelow => by
        obtain ⟨f, hf, hgf⟩ := h.origin g hg
        rw [factorsOf_below (hfs f hf).1 (hfs f hf).2 hgf hbelow, habove f hf] at hbelow
        cases hbelow
      rw [isBelow_eq (assemble_coefficient h.same hgs h.assembled), Expr.productOf]
      exact not_below_downgrade fun f hf => (List.mem_append.mp (StableSort.mem_sort.mp hf)).elim
        (coefficient_not_isBelow f) (hgs f)
  · exact not_below_of_isConst hconst

/-- What is put together of the factors of `fs`, in order, are constants and plain factors. -/
theorem Assembles.member {r : Expr α} {depth : Nat} {fs' es gs : List (Expr α)}
    (h : Assembles fs r depth fs' es gs) {f : Expr α} (hf : f ∈ fs') :
    f.Fixed ∧ f.isCompound = false ∧ (isBelow f = true → ∃ g ∈ gs, Same f g) := by
  obtain ⟨g, hg, hsame⟩ := h.same.exists_right f hf
  rw [hsame.isCompound_eq]
  rcases List.mem_append.mp (StableSort.mem_sort.mp hg) with hg | hg
  · rcases length_coefficient_le es with hnone | ⟨c, hone⟩
    · simp [hnone] at hg
    · rw [hone, List.mem_singleton] at hg
      subst hg
      refine ⟨(Fixed.const c).same hsame.symm, rfl, fun hbelow => ?_⟩
      rw [isBelow_eq hsame] at hbelow
      cases hbelow
  · have hplain := h.plain g hg
    exact ⟨hplain.fixed.same hsame.symm, hplain.not_compound, fun _ => ⟨g, hg, hsame⟩⟩

/-- **A fraction put together without loss**: the numerator does not belong below the line, and the
denominator is a product of what belonged there. -/
theorem Assembles.fraction {x y : Expr α} {depth : Nat} {fs' es gs : List (Expr α)}
    (h : Assembles fs (.fraction x y) depth fs' es gs)
    (hbulk : (fs.map bulk).prod ≤ (Expr.fraction x y).bulk) :
    isBelow x = false ∧ fs'.filter isBelow ≠ [] ∧ ∃ ds,
      denominators (solve depth) (fs'.filter isBelow) = some ds ∧
        solve depth (.product ds) = some y := by
  have hn := Expr.tameBelow (α := α) (Expr.product fs').size
  have hwithin (p : Expr α → Bool) : ∀ f ∈ fs'.filter p,
      Within (Expr.product fs').size (Expr.product fs').size f := fun f hf =>
    (h.member (List.mem_of_mem_filter hf)).1.within hn
      (Expr.size_lt_of_mem_children (e := .product fs') (List.mem_of_mem_filter hf))
  have hprod : (fs'.map bulk).prod ≤ x.bulk * y.bulk := by
    have hsorted : (Expr.ascending (coefficient es ++ gs)).Perm _ := Expr.arrange_perm .product _
    rw [prod_bulk_same h.same, prod_bulk_perm hsorted, ← Expr.bulk_fraction]
    exact h.bulk_le.trans hbulk
  rw [prod_bulk_filter isBelow fs'] at hprod
  have hassembled := h.assembled
  unfold assemble at hassembled
  simp only at hassembled
  split_ifs at hassembled with hnone hempty
  · -- nothing is below the line, and so there is no fraction
    have hdown := Option.some.inj hassembled
    rcases Expr.downgrade_product_cases (fs'.filter fun e => !isBelow e) with
      hconst | ⟨f, hf, hsingle⟩ | ⟨-, hproduct⟩
    · rw [hdown] at hconst
      cases hconst
    · have hmem : f ∈ fs' := List.mem_of_mem_filter (hf ▸ List.mem_cons_self)
      have hcompound := (h.member hmem).2.1
      rw [hsingle.symm.trans hdown] at hcompound
      cases hcompound
    · cases hproduct.symm.trans hdown
  all_goals
    simp only [Option.bind_eq_bind, Option.bind_eq_some_iff, Option.some.injEq] at hassembled
    obtain ⟨ds, hds, num, hnum, den, hden, heq⟩ := hassembled
    cases heq
    refine ⟨?_, fun hnil => hnone (List.isEmpty_iff.mpr hnil), ds, hds, hden⟩
  · rw [← hnum]
    rfl
  · obtain ⟨hdsw, hdsle⟩ := denominators_shrinks (bounded_solve hn depth) (hwithin isBelow) hds
    have hdenle := ((bounded_solve hn depth).product hdsw hden).2.trans hdsle
    have habove : ∀ f ∈ fs'.filter fun e => !isBelow e, f.Fixed ∧ f.isFraction = false :=
      fun f hf => by
        obtain ⟨hfixed, hcompound, -⟩ := h.member (List.mem_of_mem_filter hf)
        exact ⟨hfixed, Expr.isFraction_of_not_compound hcompound⟩
    refine not_below_of_lossless habove (fun f hf => by simpa using (List.mem_filter.mp hf).2)
      ⟨depth, hnum⟩ (Nat.le_of_mul_le_mul_left ?_ (Expr.prod_bulk_pos (fs'.filter isBelow)))
    rw [Nat.mul_comm _ x.bulk]
    exact hprod.trans (Nat.mul_le_mul_left _ hdenle)

/-- What belongs below the line is a single factor, if all of it stems from one. -/
theorem Assembles.below_single {r d : Expr α} {depth : Nat} {fs' es gs : List (Expr α)}
    (h : Assembles fs r depth fs' es gs) (hne : fs'.filter isBelow ≠ [])
    (hd : ∀ g ∈ gs, isBelow g = true → g = d) : ∃ f, fs'.filter isBelow = [f] ∧ Same f d := by
  have hsame := Expr.filter_same h.same isBelow_eq
  have hperm : ((Expr.ascending (coefficient es ++ gs)).filter isBelow).Perm
      ((coefficient es ++ gs).filter isBelow) := (Expr.arrange_perm .product _).filter _
  have hcoefficient : (coefficient es).filter isBelow = [] :=
    List.filter_eq_nil_iff.mpr fun e he => by simp [coefficient_not_isBelow e he]
  have hbelow : ∀ g ∈ gs.filter isBelow, g = d := fun g hg =>
    hd g (List.mem_of_mem_filter hg) (List.mem_filter.mp hg).2
  have hbases := h.bases.filter isBelow
  rw [List.filter_append, hcoefficient, List.nil_append] at hperm
  match gs.filter isBelow, hperm, hbelow, hbases with
  | [], hperm, _, _ =>
    rw [hperm.eq_nil] at hsame
    exact absurd (List.forall₂_nil_right_iff.mp hsame) hne
  | [g], hperm, hbelow, _ =>
    rw [List.perm_singleton.mp hperm] at hsame
    match fs'.filter isBelow, hsame with
    | [f], .cons hf .nil => exact ⟨f, rfl, hbelow g List.mem_cons_self ▸ hf⟩
  | f :: g :: _, _, hbelow, hbases =>
    have hdistinct := (List.pairwise_cons.mp hbases).1 g List.mem_cons_self
    rw [hbelow f List.mem_cons_self, hbelow g (List.mem_cons_of_mem _ List.mem_cons_self)] at hdistinct
    exact absurd (Expr.Same.refl d.base) (Bool.eq_false_iff.mp hdistinct)

omit [StandardScalar α] in
theorem exists_power_of_below {e : Expr α} (h : isBelow e = true) : ∃ b x, e = .power b x := by
  unfold isBelow at h
  split at h
  · exact ⟨_, _, rfl⟩
  · cases h

omit [StandardScalar α] in
theorem denominators_single {solve : Solver α} {b x : Expr α} {ds : List (Expr α)}
    (h : denominators solve [.power b x] = some ds) : ∃ z s,
      solve (.product [.const Scalar.negOne, x]) = some z ∧
        solve (.step (.power b z)) = some s ∧ ds = [s] := by
  simp only [denominators, negateExponent, Option.bind_eq_bind, Option.bind_eq_some_iff,
    Option.some.injEq] at h
  obtain ⟨z, hz, s, hs, _, rfl, rfl⟩ := h
  exact ⟨z, s, hz, hs, rfl⟩

/-- The power `b ^ x` with its exponent negated comes to `r`. -/
def Flips (b x r : Expr α) : Prop :=
  ∃ z, (Task.product [.const Scalar.negOne, x]).ComesTo z ∧ (Task.step (.power b z)).ComesTo r

/-- **A product of two factors without loss** that is a fraction over one of them: the other one is a
power with a negative exponent, and the denominator is what the power is flipped to. -/
theorem fraction_of_lossless {a b d r : Expr α} (ha : a.Fixed ∧ a.isFraction = false)
    (hd : d.Fixed ∧ d.isFraction = false) (hperm : fs.Perm [a, d])
    (hr : (Task.product fs).ComesTo r) (hsame : Same r (.fraction a b))
    (hbulk : a.bulk * d.bulk ≤ r.bulk) :
      ∃ p x, d = .power p x ∧ x.isNegative = true ∧ ∃ s, Flips p x s ∧ Same s b := by
  have hfs : ∀ f ∈ fs, f.Fixed ∧ f.isFraction = false := fun f hf => by
    rcases List.mem_cons.mp (hperm.mem_iff.mp hf) with rfl | hf
    · exact ha
    · exact List.mem_singleton.mp hf ▸ hd
  have hprod : (fs.map bulk).prod ≤ r.bulk := by
    rw [prod_bulk_perm hperm]
    simpa using hbulk
  cases hsame.node with
  | @binary _ x y _ _ hx hy =>
    have hmem : Expr.fraction x y ∉ fs := fun hmem => by
      have hfraction := (hfs _ hmem).2
      cases hfraction
    obtain ⟨depth, fs', es, gs, h⟩ := exists_assembles hfs hr rfl hmem hprod
    obtain ⟨hnum, hne, ds, hds, hden⟩ := h.fraction hprod
    have habove : isBelow a = false := isBelow_eq hx ▸ hnum
    have hstems : ∀ g ∈ gs, isBelow g = true → g = d := fun g hg hbelow => by
      obtain ⟨f, hf, hgf⟩ := h.origin g hg
      obtain rfl := factorsOf_below (hfs f hf).1 (hfs f hf).2 hgf hbelow
      rcases List.mem_cons.mp (hperm.mem_iff.mp hf) with rfl | hf
      · rw [habove] at hbelow
        cases hbelow
      · exact List.mem_singleton.mp hf
    obtain ⟨f, hf, hfd⟩ := h.below_single hne hstems
    have hbelow : isBelow f = true :=
      (List.mem_filter.mp (hf ▸ List.mem_cons_self : f ∈ fs'.filter isBelow)).2
    rw [hf] at hds
    obtain ⟨p, u, rfl⟩ := exists_power_of_below hbelow
    obtain ⟨z, s, hz, hs, rfl⟩ := denominators_single hds
    have hys : y = s := by
      cases depth with
      | zero => cases hden
      | succ depth => exact (Option.some.inj hden).symm
    cases hfd.node with
    | @binary _ _ _ q v hpq huv =>
      obtain ⟨z', hz', hzz'⟩ := Task.ComesTo.of_same (t := .product [.const Scalar.negOne, u])
        ⟨depth, hz⟩ (.product (.cons (.refl _) (.cons huv .nil)))
      obtain ⟨s', hs', hss'⟩ := Task.ComesTo.of_same (t := .step (.power p z)) ⟨depth, hs⟩
        (.step (.binary .power hpq hzz'))
      refine ⟨q, v, rfl, huv.isNegative_eq ▸ hbelow, s', ⟨z', hz', hs'⟩, ?_⟩
      exact hss'.symm.trans (hys ▸ hy)

end Simplify

/-! ### Exponents negated twice -/

namespace Simplify

variable [DoublingScalar α]

/-- A negative number is neither zero nor one. -/
theorem not_unit_of_negative {c : α} (h : Scalar.lt c Scalar.zero = true) :
    Scalar.eq c Scalar.zero = false ∧ Scalar.eq c Scalar.one = false := by
  constructor
  · refine Bool.eq_false_iff.mpr fun hzero => ?_
    obtain ⟨hc, hz⟩ := OrderedScalar.isNaN_of_eq hzero
    rw [((OrderedScalar.eq_iff hc hz).mp hzero).1] at h
    cases h
  · refine Bool.eq_false_iff.mpr fun hone => ?_
    have hsame : Scalar.Same c Scalar.one := Scalar.same_of_eq hone
    rw [hsame.lt_eq (.refl _), DoublingScalar.one_not_negative] at h
    cases h

omit [DoublingScalar α] in
theorem exists_coefficient_of_negative {x : Expr α} (hneg : x.isNegative = true)
    (hconst : ¬x.isConst = true) :
    ∃ c gs, x = .product (.const c :: gs) ∧ Scalar.lt c Scalar.zero = true := by
  unfold Expr.isNegative at hneg
  split at hneg
  · exact absurd rfl hconst
  · split at hneg
    · next c hleading =>
      unfold Expr.leadingCoefficient? at hleading
      split at hleading
      · cases hleading
        exact ⟨_, _, rfl, hneg⟩
      · cases hleading
    · cases hneg

/-- A negative fixed exponent, negated: a number that is not negative, a product with a coefficient
that is not negative and steady factors, or the exponent without its coefficient. -/
theorem negated_cases {x z : Expr α} (hx : x.Fixed) (hneg : x.isNegative = true)
    (hz : (Task.product [.const Scalar.negOne, x]).ComesTo z) :
    (∃ k, z = .const k ∧ Scalar.lt k Scalar.zero = false) ∨
      (∃ k gs, Same z (.product (.const k :: gs)) ∧ SteadyFactors gs ∧
        Scalar.eq k Scalar.zero = false ∧ Scalar.eq k Scalar.one = false ∧
          Scalar.lt k Scalar.zero = false) ∨
        ∃ c gs, x = .product (.const c :: gs) ∧ Scalar.eq c Scalar.one = false ∧
          Same z (Expr.product gs).downgrade := by
  obtain ⟨depth | depth, hz⟩ := hz
  · cases hz
  change multiplyFactors (solve depth) [.const Scalar.negOne, x] = some z at hz
  by_cases hconst : x.isConst = true
  · left
    obtain ⟨c, rfl⟩ := Expr.isConst_iff_exists.mp hconst
    obtain ⟨hzero, hone⟩ := not_unit_of_negative hneg
    have hzero' : (Expr.const c).isZero = false := hzero
    have hone' : (Expr.const c).isOne = false := hone
    have hnegOne : (Expr.const (Scalar.negOne : α)).isZero = false := DoublingScalar.negOne_ne_zero
    have hnegOne' : (Expr.const (Scalar.negOne : α)).isOne = false := DoublingScalar.negOne_ne_one
    unfold multiplyFactors at hz
    refine ⟨Scalar.mul Scalar.negOne c, ?_, (DoublingScalar.neg_of_negative hneg).1⟩
    simpa [hzero', hone', hnegOne, hnegOne', eq_comm] using hz
  · right
    obtain ⟨c, gs, rfl, hc⟩ := exists_coefficient_of_negative hneg hconst
    obtain ⟨hgs, hnonConstants, hsteady⟩ := coefficient_first hx
    have htotal : Scalar.Same
        (Scalar.product (constantsOf (.const Scalar.negOne :: .const c :: gs)))
        (Scalar.mul Scalar.negOne c) := by
      have hconstants : constantsOf (.const Scalar.negOne :: .const c :: gs) =
          [Scalar.negOne, c] :=
        congrArg (Scalar.negOne :: c :: ·) (Expr.constantsOf_eq_nil hgs)
      rw [hconstants]
      exact CongruentScalar.mul (DoublingScalar.one_mul _) (.refl c)
    obtain ⟨hnegative, hzero⟩ := DoublingScalar.neg_of_negative hc
    have hsame := hx.multiplyFactors_product DoublingScalar.negOne_ne_zero
      DoublingScalar.negOne_ne_one hz
    rw [hnonConstants] at hsame
    generalize htotal' : Scalar.product (constantsOf (.const Scalar.negOne :: .const c :: gs)) = k
      at htotal
    rcases hone : Scalar.eq k Scalar.one
    · left
      have hcoefficient : coefficient (.const Scalar.negOne :: .const c :: gs) = [.const k] := by
        simp only [coefficient, htotal', hone, Bool.false_eq_true, if_false]
      have hlength : 2 ≤ (Expr.const k :: gs).length :=
        Nat.succ_le_succ (List.length_pos_of_ne_nil hsteady.nonempty)
      rw [hcoefficient, List.singleton_append, Expr.productOf, hsteady.ascending_eq,
        Expr.downgrade_product_of_length hlength] at hsame
      exact ⟨k, gs, hsame, hsteady, (htotal.eq_eq (.refl _)).trans hzero, hone,
        (htotal.lt_eq (.refl _)).trans hnegative⟩
    · right
      have hcoefficient : coefficient (.const Scalar.negOne :: .const c :: gs) = [] := by
        simp only [coefficient, htotal', hone, if_true]
      have hsorted : Expr.ascending gs = gs := StableSort.sort_eq_self hsteady.sorted
      rw [hcoefficient, List.nil_append, Expr.productOf, hsorted] at hsame
      exact ⟨c, gs, rfl, (not_unit_of_negative hc).2, hsame⟩

/-- **A negated exponent, taken a step further,** loses bulk if it is negative again. -/
theorem negated_step {x z y : Expr α} (hx : x.Fixed) (hneg : x.isNegative = true)
    (hz : (Task.product [.const Scalar.negOne, x]).ComesTo z) (hy : (Task.step z).ComesTo y)
    (hyneg : y.isNegative = true) : y.bulk < x.bulk := by
  rcases negated_cases hx hneg hz with ⟨k, rfl, hk⟩ |
    ⟨k, gs, hsame, hsteady, hzero, hone, hk⟩ | ⟨c, gs, rfl, hc, hsame⟩
  · obtain rfl := comesTo_const hy
    exact absurd hyneg (Bool.eq_false_iff.mp hk)
  · obtain ⟨y', hy', hyy'⟩ := hy.of_same (.step hsame)
    have hstays := hsteady.step_same hzero hone (DoublingScalar.one_mul k) hy'
    rw [(hyy'.trans hstays).isNegative_eq] at hyneg
    exact absurd hyneg (Bool.eq_false_iff.mp hk)
  · -- the coefficient is gone, and a step does not give any bulk back
    have hn := Expr.tameBelow (α := α) ((Expr.product (.const c :: gs)).size + 1)
    have hwithin := hx.within hn (Nat.lt_succ_self _)
    obtain ⟨depth, hz⟩ := hz
    obtain ⟨depth', hy⟩ := hy
    have hzwithin := ((bounded_solve hn depth).product_pair (.const _) hwithin hz).1
    have hle := ((bounded_solve hn depth').step hzwithin hy).2
    have hbulk := (downgrade_product_shrinks (Within.product_iff.mp hwithin |> fun h g hg =>
      h g (List.mem_cons_of_mem _ hg))).2
    rw [hsame.bulk_eq, hbulk] at hle
    have hpos := Expr.prod_bulk_pos gs
    rw [Expr.bulk_product, List.map_cons, List.prod_cons, Expr.bulk_const_of_ne hc]
    omega

omit [DoublingScalar α] in
theorem constantPower?_isBase {b r : Expr α} {x : α} (hbase : b.isBase = true)
    (h : constantPower? b x = some r) : r.isBase = true := by
  unfold constantPower? at h
  split at h
  · exact Option.some.inj h ▸ rfl
  · split_ifs at h
    · exact Option.some.inj h ▸ rfl
    · exact Option.some.inj h ▸ hbase

omit [DoublingScalar α] in
/-- A step at a power that stays a power takes steps at its parts. -/
theorem step_power_cases {b z r : Expr α} (hbase : b.isBase = true)
    (h : (Task.step (.power b z)).ComesTo r) : r.isBase = true ∨
      (∃ c, z = .log c r) ∨ ∃ b' z', r = .power b' z' ∧ (Task.step z).ComesTo z' := by
  obtain ⟨depth | depth, h⟩ := h
  · cases h
  change stepPower (solve depth) b z = some r at h
  have hparts (h : stepParts (solve depth) .power b z = some r) :
      ∃ b' z', r = .power b' z' ∧ (Task.step z).ComesTo z' := by
    simp only [stepParts, Option.bind_eq_bind, Option.bind_eq_some_iff, Option.some.injEq] at h
    obtain ⟨b', -, z', hz', rfl⟩ := h
    exact ⟨b', z', rfl, depth, hz'⟩
  unfold stepPower at h
  split at h
  · cases hbase
  · cases hbase
  · cases hbase
  · split at h
    · next c arg =>
      split_ifs at h
      · obtain rfl := Option.some.inj h
        exact .inr (.inl ⟨c, rfl⟩)
      · exact .inr (.inr (hparts h))
    · split at h
      · next hconstant =>
        obtain rfl := Option.some.inj h
        exact .inl (constantPower?_isBase hbase hconstant)
      · exact .inr (.inr (hparts h))
    · exact .inr (.inr (hparts h))

/-- **A power that is flipped** to a power with a negative exponent again loses bulk in its exponent,
if it does not lose bulk itself. -/
theorem Flips.bulk_lt {b x s c y : Expr α} (h : (Expr.power b x).Fixed)
    (hneg : x.isNegative = true) (hflip : Flips b x s) (hs : Same s (.power c y))
    (hyneg : y.isNegative = true) (hbulk : (Expr.power b x).bulk ≤ s.bulk) : y.bulk < x.bulk := by
  obtain ⟨z, hz, hstep⟩ := hflip
  have hn := Expr.tameBelow (α := α) ((Expr.power b x).size + 1)
  have hwithin := h.within hn (Nat.lt_succ_self _)
  have hbase := hn.base h (Nat.lt_succ_self _)
  rcases step_power_cases hbase hstep with hbase' | ⟨l, rfl⟩ | ⟨b', z', rfl, hz'⟩
  · rw [hs.isBase_eq] at hbase'
    cases hbase'
  · obtain ⟨depth, hz⟩ := hz
    obtain ⟨hpower, hle⟩ := negateExponent_shrinks (bounded_solve hn depth) hwithin hz
    have hlt := (log_arg_shrinks hn hpower).2
    omega
  · cases hs.node with
    | binary _ _ hy =>
      rw [← hy.bulk_eq]
      exact negated_step h.power_exponent hneg hz hz' (hy.isNegative_eq.trans hyneg)

end Simplify

namespace Expr.Fixed

variable [DoublingScalar α]

/-- A fixed fraction of fractions has a fraction among the parts of these. -/
theorem not_nested_plain {a b c d : Expr α}
    (hab : a.isFraction = false ∧ b.isFraction = false)
    (hcd : c.isFraction = false ∧ d.isFraction = false) :
    ¬(fraction (fraction a b) (fraction c d)).Fixed := by
  intro h
  obtain ⟨⟨r, hr, hrab⟩, q, hq, hqcd⟩ := h.products
  have hn := tameBelow (α := α) (fraction (fraction a b) (fraction c d)).size
  have hnum := h.num
  have hden := h.den
  obtain ⟨ha, hb, hc, hd⟩ : a.size < (fraction (fraction a b) (fraction c d)).size ∧
      b.size < (fraction (fraction a b) (fraction c d)).size ∧
        c.size < (fraction (fraction a b) (fraction c d)).size ∧
          d.size < (fraction (fraction a b) (fraction c d)).size := by
    simp only [size]
    omega
  -- multiplying across does not add bulk, so the denominators are equally bulky
  have hrle : a.bulk * b.bulk ≤ a.bulk * d.bulk := by
    obtain ⟨depth, hr⟩ := hr
    rw [← bulk_fraction, ← hrab.bulk_eq]
    exact ((Simplify.bounded_solve hn depth).product_pair (hnum.num.within hn ha)
      (hden.den.within hn hd) hr).2
  have hqle : c.bulk * d.bulk ≤ c.bulk * b.bulk := by
    obtain ⟨depth, hq⟩ := hq
    rw [← bulk_fraction, ← hqcd.bulk_eq, Nat.mul_comm]
    exact ((Simplify.bounded_solve hn depth).product_pair (hnum.den.within hn hb)
      (hden.num.within hn hc) hq).2
  have hle : b.bulk ≤ d.bulk := Nat.le_of_mul_le_mul_left hrle (bulk_pos a)
  have hge : d.bulk ≤ b.bulk := Nat.le_of_mul_le_mul_left hqle (bulk_pos c)
  -- either denominator is flipped to the other one
  obtain ⟨p, x, rfl, hx, s, hs, hsame⟩ := Simplify.fraction_of_lossless ⟨hnum.num, hab.1⟩
    ⟨hden.den, hcd.2⟩ (.refl _) hr hrab (by
      rw [hrab.bulk_eq, bulk_fraction]
      exact Nat.mul_le_mul_left _ hge)
  obtain ⟨p', y, rfl, hy, s', hs', hsame'⟩ := Simplify.fraction_of_lossless ⟨hden.num, hcd.1⟩
    ⟨hnum.den, hab.2⟩ (.swap _ _ _) hq hqcd (by
      rw [hqcd.bulk_eq, bulk_fraction]
      exact Nat.mul_le_mul_left _ hle)
  have hlt := hs.bulk_lt hden.den hx hsame hy (hsame.bulk_eq ▸ hge)
  have hgt := hs'.bulk_lt hnum.den hy hsame' hx (hsame'.bulk_eq ▸ hle)
  omega

/-- **No part of a fixed fraction is a fraction.** -/
theorem not_nested {a d : Expr α} (h : (fraction a d).Fixed) :
    a.isFraction = false ∧ d.isFraction = false := by
  induction hsize : (fraction a d).size using Nat.strong_induction_on generalizing a d with
  | _ size ih =>
    have hnum := size_lt_of_mem_children (e := fraction a d) List.mem_cons_self
    have hden := size_lt_of_mem_children (e := fraction a d)
      (List.mem_cons_of_mem _ List.mem_cons_self)
    -- the parts of two fractions are none, by induction
    have hboth {x y z w : Expr α} (hx : a = fraction x y) (hz : d = fraction z w) : False := by
      subst hx hz
      exact not_nested_plain (ih _ (hsize ▸ hnum) h.num rfl) (ih _ (hsize ▸ hden) h.den rfl) h
    constructor
    · refine isFraction_eq_false ?_
      rintro ⟨x, y, rfl⟩
      obtain ⟨z, w, rfl⟩ := h.den_fraction
      exact hboth rfl rfl
    · refine isFraction_eq_false ?_
      rintro ⟨z, w, rfl⟩
      obtain ⟨x, y, rfl⟩ := h.num_fraction
      exact hboth rfl rfl

end Expr.Fixed

end SymbolicAlgebra
