import SymbolicAlgebra.Proofs.Collected.Normal
import SymbolicAlgebra.Proofs.Doubled.Product

/-! # Fixed factors

Multiplying powers of different bases that a step leads to given factors puts these factors in order
and does nothing else (`multiplyPowers_distinct`). The factors of a fixed product are such factors,
as they are and also when each of them is raised to the first power. So a step takes a fixed
expression other than a fraction from its first power back to itself (`Fixed.step_power_one`), and
a number is multiplied into the coefficient of a fixed product (`Fixed.multiplyFactors_product`). -/

theorem List.Forall₂.fork {β γ δ : Type} {R : β → γ → Prop} {Q : β → δ → Prop} {S : γ → δ → Prop}
    {xs : List β} {ys : List γ} {zs : List δ} (hR : List.Forall₂ R xs ys)
    (hQ : List.Forall₂ Q xs zs) (h : ∀ {x y z}, R x y → Q x z → S y z) : List.Forall₂ S ys zs := by
  induction hR generalizing zs with
  | nil =>
    cases hQ
    exact .nil
  | cons hxy _ ih =>
    cases hQ with
    | cons hxz hQ => exact .cons (h hxy hxz) (ih hQ)

namespace SymbolicAlgebra

open SymbolicAlgebra.Expr (Same Fixed CollectedFactors)

variable {α : Type} [Scalar α]

namespace Simplify

/-! ### Powers of different bases -/

theorem classes_of_pairwise {β : Type} {alike : β → β → Bool} : ∀ {bs : List β},
    bs.Pairwise (fun b c => alike b c = false) → classes alike bs = bs.map fun b => (b, [])
  | [], _ => classes_nil alike
  | b :: bs, h => by
    obtain ⟨hb, hbs⟩ := List.pairwise_cons.mp h
    have halike : bs.filter (alike b) = [] :=
      List.filter_eq_nil_iff.mpr fun c hc => by simp [hb c hc]
    have hunlike : unlike alike b bs = bs :=
      List.filter_eq_self.mpr fun c hc => by simp [hb c hc]
    rw [classes_cons, halike, hunlike, classes_of_pairwise hbs, List.map_cons]

theorem solve_sum_singleton {depth : Nat} {e r : Expr α} (h : solve depth (.sum [e]) = some r) :
    r = e := by
  cases depth with
  | zero => cases h
  | succ depth => exact (Option.some.inj h).symm

theorem toPowers_singles {depth : Nat} : ∀ {ps : List (Expr α × Expr α)} {rs : List (Expr α)},
    LikeBases.toPowers (solve depth) (ps.map fun p => ⟨p.1, [p.2]⟩) = some rs →
      rs = ps.map fun p => .power p.1 p.2
  | [], _, h => (Option.some.inj h).symm
  | p :: ps, rs, h => by
    simp only [List.map_cons, LikeBases.toPowers, Option.bind_eq_bind, Option.bind_eq_some_iff,
      Option.some.injEq] at h
    obtain ⟨exponent, hexponent, rest, hrest, rfl⟩ := h
    rw [solve_sum_singleton hexponent, toPowers_singles hrest, List.map_cons]

/-- **Powers of different bases** stay as they are. -/
theorem combineLikeBases_distinct {depth : Nat} {ps : List (Expr α × Expr α)} {rs : List (Expr α)}
    (hps : ps.Pairwise fun p q => alikePowers p q = false)
    (h : combineLikeBases (solve depth) ps = some rs) : rs = ps.map fun p => .power p.1 p.2 := by
  rw [combineLikeBases, LikeBases.collect_eq_classes, classes_of_pairwise hps, List.map_map] at h
  exact toPowers_singles h

omit [Scalar α] in
theorem map_power_filterMap (es : List (Expr α)) :
    ((es.filterMap power?).map fun p => Expr.power p.1 p.2) =
      es.filter fun e => (power? e).isSome := by
  induction es with
  | nil => rfl
  | cons e es ih =>
    rcases hpower : power? e with _ | ⟨b, x⟩
    · simp [hpower, ih]
    · simp [hpower, ih, (power?_eq_some hpower).symm]

omit [Scalar α] in
theorem pieces_perm (es : List (Expr α)) :
    (((es.filterMap power?).map fun p => Expr.power p.1 p.2) ++
      es.filter fun e => (power? e).isNone).Perm es := by
  rw [map_power_filterMap]
  convert List.filter_append_perm (fun e => (power? e).isSome) es using 2
  simp

theorem coefficient_not_isBelow {es : List (Expr α)} : ∀ e ∈ coefficient es, isBelow e = false := by
  rcases length_coefficient_le es with hnone | ⟨c, hone⟩
  · simp [hnone]
  · rw [hone]
    exact List.forall_mem_singleton.mpr rfl

/-- Factors none of which belongs below the line are put together as a product. -/
theorem assemble_above {solve : Solver α} {fs : List (Expr α)} {r : Expr α}
    (habove : ∀ f ∈ fs, isBelow f = false) (h : assemble solve fs = some r) :
    r = (Expr.product fs).downgrade := by
  have hbelow : fs.filter isBelow = [] :=
    List.filter_eq_nil_iff.mpr fun f hf => by simp [habove f hf]
  have hall : (fs.filter fun e => !isBelow e) = fs :=
    List.filter_eq_self.mpr fun f hf => by simp [habove f hf]
  simp only [assemble, hbelow, hall, List.isEmpty_nil, if_true, Option.some.injEq] at h
  exact h.symm

variable [StandardScalar α]

/-- The coefficient and factors that do not belong below the line are put together as a product. -/
theorem assemble_coefficient {solve : Solver α} {fs es gs : List (Expr α)} {r : Expr α}
    (hsame : List.Forall₂ Same fs (Expr.ascending (coefficient es ++ gs)))
    (habove : ∀ g ∈ gs, isBelow g = false) (h : assemble solve fs = some r) :
    Same r (Expr.productOf (coefficient es ++ gs)).downgrade := by
  obtain rfl := assemble_above (fun e he => by
    obtain ⟨g, hg, hsame⟩ := hsame.exists_right e he
    rw [isBelow_eq hsame]
    exact (List.mem_append.mp (StableSort.mem_sort.mp hg)).elim (coefficient_not_isBelow g)
      (habove g)) h
  exact (Same.nary .product hsame).downgrade

/-- **Multiplying what is collected**: if the pieces that factors are taken apart into are powers of
different bases, and a step leads from the pieces to given factors, then the coefficient and the
given factors are put together. -/
theorem multiplyPowers_assemble {depth : Nat} {fs es pieces gs : List (Expr α)} {r : Expr α}
    (hexpand : expandFractions (solve depth) fs = some es)
    (hpieces : asPowers (solve depth) (nonConstants (factorsOfList es)) = some pieces)
    (hdistinct : (pieces.filterMap power?).Pairwise fun p q => alikePowers p q = false)
    (hsteps : List.Forall₂ (fun p g => ∀ s, solve depth (.step p) = some s → Same s g) pieces gs)
    (h : multiplyPowers (solve depth) fs = some r) :
    ∃ fs', assemble (solve depth) fs' = some r ∧
      List.Forall₂ Same fs' (Expr.ascending (coefficient (factorsOfList es) ++ gs)) := by
  simp only [multiplyPowers, hexpand, hpieces, Option.bind_eq_bind, Option.bind_some,
    Option.bind_eq_some_iff] at h
  obtain ⟨powers, hpowers, stepped, hstepped, h⟩ := h
  obtain rfl := combineLikeBases_distinct hdistinct hpowers
  generalize hcoefficient : coefficient (factorsOfList es) = total at h hstepped ⊢
  -- the steps at the pieces, in the order of the pieces
  have hperm : (total ++ pieces).Perm (total ++ ((pieces.filterMap power?).map fun p =>
      Expr.power p.1 p.2) ++ pieces.filter fun e => (power? e).isNone) := by
    rw [List.append_assoc]
    exact (pieces_perm pieces).symm.append_left total
  obtain ⟨ordered, hordered, hsorted⟩ :=
    List.perm_comp_forall₂ hperm (Solver.steps_forall₂ hstepped)
  have htotal : List.Forall₂ (fun p g => ∀ s, solve depth (.step p) = some s → Same s g)
      total total := by
    refine List.forall₂_same.mpr fun e he s hs => ?_
    rcases length_coefficient_le (factorsOfList es) with hnone | ⟨c, hone⟩
    · simp [← hcoefficient, hnone] at he
    · rw [← hcoefficient, hone] at he
      obtain rfl := List.mem_singleton.mp he
      rw [(constants_solve depth).step hs]
      exact .refl _
  have hresults := hordered.fork (List.rel_append htotal hsteps) fun hs hsame => hsame _ hs
  exact ⟨_, h, (Expr.arrange_perm_same .product hsorted).fork
    (Expr.arrange_congr .product hresults) fun h h' => h.symm.trans h'⟩

/-- Factors none of which belongs below the line are multiplied to the product of the coefficient and
the factors. -/
theorem multiplyPowers_distinct {depth : Nat} {fs es pieces gs : List (Expr α)} {r : Expr α}
    (hexpand : expandFractions (solve depth) fs = some es)
    (hpieces : asPowers (solve depth) (nonConstants (factorsOfList es)) = some pieces)
    (hdistinct : (pieces.filterMap power?).Pairwise fun p q => alikePowers p q = false)
    (hsteps : List.Forall₂ (fun p g => ∀ s, solve depth (.step p) = some s → Same s g) pieces gs)
    (habove : ∀ g ∈ gs, isBelow g = false) (h : multiplyPowers (solve depth) fs = some r) :
    Same r (Expr.productOf (coefficient (factorsOfList es) ++ gs)).downgrade := by
  obtain ⟨fs', hassemble, hsame⟩ := multiplyPowers_assemble hexpand hpieces hdistinct hsteps h
  exact assemble_coefficient hsame habove hassemble

/-! ### Factors that are fixed -/

/-- A fixed factor other than a number that is not taken apart. -/
structure PlainFactor (g : Expr α) : Prop where
  fixed : g.Fixed
  not_const : g.isConst = false
  not_compound : g.isCompound = false

/-- A factor that a product in collected normal form may have besides its coefficient. -/
structure SteadyFactor (g : Expr α) : Prop extends PlainFactor g where
  above : isBelow g = false

/-- A power to the first of a base that stays. -/
theorem stepPower_one {solve : Solver α} {b : Expr α} (hbase : b.isBase = true)
    (hconst : b.isConst = false) : stepPower solve b (.const Scalar.one) = some b := by
  have hnone : b.constant? = none := by
    unfold Expr.isConst at hconst
    simpa using hconst
  have hpower : constantPower? b (Scalar.one : α) = some b := by
    simp [constantPower?, hnone, StandardScalar.one_eq_zero, StandardScalar.one_eq_one]
  rw [stepPower.eq_5 _ _ _ (by rintro _ _ rfl; cases hbase) (by rintro _ _ rfl; cases hbase)
    (by rintro _ rfl; cases hbase), hpower]

omit [StandardScalar α] in
theorem PlainFactor.isBase {g : Expr α} (hg : PlainFactor g)
    (hpower : ∀ b x, g = .power b x → False) : g.isBase = true := by
  unfold Expr.isBase
  split
  · cases hg.not_compound
  · cases hg.not_compound
  · exact absurd rfl (hpower _ _)
  · rfl

/-- **Plain factors become powers of their bases**, and a step leads back to the factors. -/
theorem asPowers_plain {depth : Nat} : ∀ gs ps : List (Expr α), (∀ g ∈ gs, PlainFactor g) →
    asPowers (solve depth) gs = some ps →
      List.Forall₂ (fun p g => (∃ b x, p = .power b x ∧ Same b g.base) ∧
        ∀ s, solve depth (.step p) = some s → Same s g) ps gs := by
  refine asPowers.induct _ ?nil ?power ?other
  case nil =>
    intro ps _ h
    rw [asPowers, Option.some.injEq] at h
    rw [← h]
    exact .nil
  case power =>
    intro b x gs ih ps hgs h
    simp only [asPowers, Option.bind_eq_bind, Option.bind_eq_some_iff, Option.some.injEq] at h
    obtain ⟨p, hp, rest, hrest, rfl⟩ := h
    obtain ⟨hg, hgs⟩ := List.forall_mem_cons.mp hgs
    have hsame := hg.fixed.step hp
    refine .cons ⟨?_, fun s hs => ?_⟩ (ih rest hgs hrest)
    · cases hsame.node with
      | binary _ hb _ => exact ⟨_, _, rfl, hb⟩
    · exact ((hg.fixed.same hsame.symm).step hs).trans hsame
  case other =>
    intro g gs hpower ih ps hgs h
    rw [asPowers.eq_3 _ g gs hpower] at h
    simp only [Option.bind_eq_bind, Option.bind_eq_some_iff, Option.some.injEq] at h
    obtain ⟨b, hb, rest, hrest, rfl⟩ := h
    obtain ⟨hg, hgs⟩ := List.forall_mem_cons.mp hgs
    have hsame := hg.fixed.step hb
    have hbase : g.base = g := by
      unfold Expr.base
      split
      · exact absurd rfl (hpower _ _)
      · rfl
    refine .cons ⟨⟨_, _, rfl, hbase.symm ▸ hsame⟩, fun s hs => ?_⟩ (ih rest hgs hrest)
    cases depth with
    | zero => cases hs
    | succ depth =>
      change stepPower (solve depth) b (.const Scalar.one) = some s at hs
      rw [stepPower_one (hsame.isBase_eq ▸ hg.isBase hpower) (hsame.isConst_eq ▸ hg.not_const)] at hs
      exact Option.some.inj hs ▸ hsame

/-- **Plain factors** of different bases are put together as they are. -/
theorem multiplyPowers_plain {depth : Nat} {fs es : List (Expr α)} {r : Expr α}
    (hexpand : expandFractions (solve depth) fs = some es)
    (hplain : ∀ g ∈ nonConstants (factorsOfList es), PlainFactor g)
    (hbases : (nonConstants (factorsOfList es)).Pairwise fun f g => (f.base == g.base) = false)
    (h : multiplyPowers (solve depth) fs = some r) :
    ∃ fs', assemble (solve depth) fs' = some r ∧ List.Forall₂ Same fs'
      (Expr.ascending (coefficient (factorsOfList es) ++ nonConstants (factorsOfList es))) := by
  obtain ⟨pieces, hpieces⟩ : ∃ pieces,
      asPowers (solve depth) (nonConstants (factorsOfList es)) = some pieces := by
    rcases hpieces : asPowers (solve depth) (nonConstants (factorsOfList es)) with _ | pieces
    · simp [multiplyPowers, hexpand, hpieces] at h
    · exact ⟨pieces, rfl⟩
  have hpowers := asPowers_plain _ _ hplain hpieces
  refine multiplyPowers_assemble hexpand hpieces ?_ (hpowers.imp fun _ _ h => h.2) h
  refine List.pairwise_filterMap.mpr ?_
  refine hpowers.flip.pairwise hbases ?_
  rintro f g p q ⟨⟨b, x, rfl, hb⟩, -⟩ ⟨⟨c, y, rfl, hc⟩, -⟩ hfg _ ⟨rfl⟩ _ ⟨rfl⟩
  exact (hb.beq_eq hc).trans hfg

/-- **The product of steady factors** of different bases is the product of the coefficient and these
factors. -/
theorem multiplyPowers_steady {depth : Nat} {fs es : List (Expr α)} {r : Expr α}
    (hexpand : expandFractions (solve depth) fs = some es)
    (hsteady : ∀ g ∈ nonConstants (factorsOfList es), SteadyFactor g)
    (hbases : (nonConstants (factorsOfList es)).Pairwise fun f g => (f.base == g.base) = false)
    (h : multiplyPowers (solve depth) fs = some r) :
    Same r (Expr.productOf (coefficient (factorsOfList es) ++
      nonConstants (factorsOfList es))).downgrade := by
  obtain ⟨fs', hassemble, hsame⟩ :=
    multiplyPowers_plain hexpand (fun g hg => (hsteady g hg).toPlainFactor) hbases h
  exact assemble_coefficient hsame (fun g hg => (hsteady g hg).above) hassemble

end Simplify

open SymbolicAlgebra.Simplify (SteadyFactor nonConstants coefficient)

namespace Expr

/-! ### Fixed products -/

theorem downgrade_product_of_length {fs : List (Expr α)} (h : 2 ≤ fs.length) :
    (product fs).downgrade = product fs := by
  match fs, h with
  | _ :: _ :: _, _ => rfl

theorem CollectedFactors.ascending_eq {fs : List (Expr α)} (h : CollectedFactors fs) :
    ascending fs = fs :=
  StableSort.sort_eq_self h.sorted

omit [Scalar α] in
theorem constant?_eq_none {e : Expr α} (he : e.isConst = false) : e.constant? = none := by
  rw [isConst, Option.isSome_eq_false_iff] at he
  exact Option.isNone_iff_eq_none.mp he

/-- The constant of collected factors comes first. -/
theorem CollectedFactors.const_first {fs : List (Expr α)} (h : CollectedFactors fs) :
    (∀ f ∈ fs, f.isConst = false) ∨
      ∃ c gs, fs = const c :: gs ∧ ∀ g ∈ gs, g.isConst = false := by
  match fs, h with
  | [], _ => exact .inl nofun
  | f :: gs, h =>
    rcases hf : f.isConst
    · refine .inl (List.forall_mem_cons.mpr ⟨hf, fun g hg => Bool.eq_false_iff.mpr fun hconst => ?_⟩)
      obtain ⟨x, rfl⟩ := isConst_iff_exists.mp hconst
      have hsorted := (List.pairwise_cons.mp h.sorted).1 _ hg
      rw [not_mayPrecede_const x hf] at hsorted
      cases hsorted
    · obtain ⟨c, rfl⟩ := isConst_iff_exists.mp hf
      have hconstants := h.constants
      rw [List.filter_cons_of_pos rfl, List.length_cons] at hconstants
      have hnone : gs.filter isConst = [] := List.length_eq_zero_iff.mp (by omega)
      exact .inr ⟨c, gs, rfl, by simpa using hnone⟩

omit [Scalar α] in
theorem nonConstants_eq_self {gs : List (Expr α)} (h : ∀ g ∈ gs, g.isConst = false) :
    nonConstants gs = gs :=
  List.filter_eq_self.mpr fun g hg => by simp [h g hg]

omit [Scalar α] in
theorem constantsOf_eq_nil {gs : List (Expr α)} (h : ∀ g ∈ gs, g.isConst = false) :
    Simplify.constantsOf gs = [] :=
  List.filterMap_eq_nil_iff.mpr fun g hg => constant?_eq_none (h g hg)

variable [StandardScalar α]

namespace Fixed

variable {fs : List (Expr α)} (h : (product fs).Fixed)
include h

theorem steadyFactor {f : Expr α} (hf : f ∈ nonConstants fs) : SteadyFactor f := by
  obtain ⟨hf, hconst⟩ := List.mem_filter.mp hf
  exact
    { fixed := h.child hf
      not_const := by simpa using hconst
      not_compound := h.collectedFactors.not_compound f hf
      above := h.collectedFactors.above f hf }

/-- **A number times a fixed product** is multiplied into the coefficient of the product. -/
theorem multiplyFactors_product {depth : Nat} {k : α} {r : Expr α}
    (hzero : Scalar.eq k Scalar.zero = false) (hone : Scalar.eq k Scalar.one = false)
    (hr : Simplify.multiplyFactors (Simplify.solve depth) [.const k, product fs] = some r) :
    Same r (productOf (coefficient (.const k :: fs) ++ nonConstants fs)).downgrade := by
  have hcollected := h.collectedFactors
  have hflat : Simplify.factorsOfList [.const k, product fs] = .const k :: fs := by
    simp only [Simplify.factorsOfList, Simplify.factorsOf, List.append_nil,
      Simplify.factorsOfList_of_not_compound hcollected.not_compound, List.singleton_append]
  have hothers : nonConstants (.const k :: fs) = nonConstants fs := rfl
  rw [Simplify.multiplyFactors_coefficient hzero hone rfl rfl] at hr
  have hsame := Simplify.multiplyPowers_steady (Simplify.expandFractions_coefficient rfl)
    (by rw [hflat, hothers]; exact fun g => h.steadyFactor)
    (by rw [hflat, hothers]; exact hcollected.bases) hr
  rwa [hflat, hothers] at hsame

end Fixed

end Expr

/-! ### First powers -/

namespace Simplify

/-- Factors that are no constants are distributed or collected. -/
theorem multiplyFactors_of_not_const {solve : Solver α} {fs : List (Expr α)}
    (hlength : 2 ≤ fs.length) (hfs : ∀ f ∈ fs, f.isConst = false) :
    multiplyFactors solve fs =
      match distribute? (Expr.ascending fs) with
      | some terms => solve (.sum terms)
      | none => multiplyPowers solve (Expr.ascending fs) := by
  have hnumber : ∀ f ∈ fs, ∀ x, f.isConstant x = false := fun f hf =>
    Expr.isConstant_of_not_const (hfs f hf)
  have hzero : fs.any Expr.isZero = false := by
    simpa [Expr.isZero] using fun f hf => hnumber f hf Scalar.zero
  have hnonones : (fs.filter fun f => !f.isOne) = fs :=
    List.filter_eq_self.mpr fun f hf => by simp [Expr.isOne, hnumber f hf]
  unfold multiplyFactors
  split
  · simp at hlength
  · rw [hzero, hnonones, if_neg Bool.false_ne_true]
    split
    · simp at hlength
    · simp at hlength
    · cases hfs _ List.mem_cons_self
    · rfl

theorem exists_const_of_isConstant {e : Expr α} {x : α} (h : e.isConstant x = true) :
    ∃ y, e = .const y ∧ Scalar.eq y x = true := by
  cases e with
  | const y => exact ⟨y, rfl, h⟩
  | _ => cases h

variable [StandardScalar α]

/-- **One times an expression** is the expression. -/
theorem solve_one_times {depth : Nat} {e r : Expr α}
    (h : solve depth (.product [.const Scalar.one, e]) = some r) : Same r e := by
  cases depth with
  | zero => cases h
  | succ depth =>
    change multiplyFactors (solve depth) [.const Scalar.one, e] = some r at h
    have hzero : (Expr.const (Scalar.one : α)).isZero = false := StandardScalar.one_eq_zero
    have hone : (Expr.const (Scalar.one : α)).isOne = true := StandardScalar.one_eq_one
    unfold multiplyFactors at h
    rcases hz : e.isZero
    · rcases ho : e.isOne
      · obtain rfl : e = r := by simpa [hzero, hone, hz, ho] using h
        exact .refl e
      · obtain ⟨x, rfl, hx⟩ := exists_const_of_isConstant ho
        obtain rfl : .const Scalar.one = r := by simpa [hzero, hone, hz, ho] using h
        exact (Same.const hx).symm
    · obtain ⟨x, rfl, hx⟩ := exists_const_of_isConstant hz
      obtain rfl : .const Scalar.zero = r := by simpa [hzero, hone, hz] using h
      exact (Same.const hx).symm

/-- A power to the first of a power is the power. -/
theorem stepPower_power_one {depth : Nat} {b x r : Expr α}
    (h : stepPower (solve depth) (.power b x) (.const Scalar.one) = some r) :
    Same r (.power b x) := by
  simp only [stepPower, Option.bind_eq_bind, Option.bind_eq_some_iff, Option.some.injEq] at h
  obtain ⟨p, hp, rfl⟩ := h
  exact .binary .power (.refl b) (solve_one_times hp)

end Simplify

variable [DoublingScalar α]

namespace Simplify

/-- A number to the first. -/
theorem constantPower?_one {x : α} :
    ∃ y, constantPower? (.const x) (Scalar.one : α) = some (.const y) ∧ Scalar.Same y x := by
  unfold constantPower?
  simp only [Expr.constant?, Option.bind_some]
  rcases hfold : foldPower? x Scalar.one with _ | y
  · simp [StandardScalar.one_eq_zero, StandardScalar.one_eq_one, Scalar.Same.refl]
  · refine ⟨y, rfl, ?_⟩
    simp only [foldPower?] at hfold
    split_ifs at hfold
    exact Option.some.inj hfold ▸ DoublingScalar.pow_one x

/-- **First powers** of fixed factors step to the factors. -/
theorem step_power_one_of_not_compound {depth : Nat} {g r : Expr α} (hg : g.Fixed)
    (hcompound : g.isCompound = false)
    (h : solve depth (.step (.power g (.const Scalar.one))) = some r) : Same r g := by
  cases depth with
  | zero => cases h
  | succ depth =>
    change stepPower (solve depth) g (.const Scalar.one) = some r at h
    by_cases hpower : ∃ b x, g = .power b x
    · obtain ⟨b, x, rfl⟩ := hpower
      exact stepPower_power_one h
    · have hbase : g.isBase = true := by
        unfold Expr.isBase
        split
        · cases hcompound
        · cases hcompound
        · exact absurd ⟨_, _, rfl⟩ hpower
        · rfl
      rcases hconst : g.isConst
      · rw [stepPower_one hbase hconst] at h
        exact Option.some.inj h ▸ .refl _
      · obtain ⟨x, rfl⟩ := Expr.isConst_iff_exists.mp hconst
        obtain ⟨y, hy, hsame⟩ := constantPower?_one (x := x)
        rw [stepPower.eq_5 _ (.const x) _ (by simp) (by simp) (by simp), hy] at h
        exact Option.some.inj h ▸ .of_numbers hsame

theorem asPowers_first {depth : Nat} : ∀ {ps gs pieces : List (Expr α)},
    List.Forall₂ (fun p g => p = .power g (.const Scalar.one)) ps gs →
      (∀ g ∈ gs, g.Fixed ∧ g.isCompound = false) →
        asPowers (solve depth) ps = some pieces → List.Forall₂ Same pieces gs
  | [], _, _, .nil, _, h => by
    rw [asPowers, Option.some.injEq] at h
    rw [← h]
    exact .nil
  | _ :: ps, g :: gs, _, .cons hp hps, hgs, h => by
    subst hp
    simp only [asPowers, Option.bind_eq_bind, Option.bind_eq_some_iff, Option.some.injEq] at h
    obtain ⟨p, hp, rest, hrest, rfl⟩ := h
    obtain ⟨⟨hfixed, hcompound⟩, hgs⟩ := List.forall_mem_cons.mp hgs
    exact .cons (step_power_one_of_not_compound hfixed hcompound hp) (asPowers_first hps hgs hrest)

end Simplify

namespace Expr.Fixed

theorem downgrade_productOf {fs : List (Expr α)} (h : (Expr.product fs).Fixed) :
    (Expr.productOf fs).downgrade = .product fs := by
  rw [Expr.productOf, h.collectedFactors.ascending_eq,
    Expr.downgrade_product_of_length h.two_le_length]

theorem powers_distinct {fs gs pieces : List (Expr α)} (h : (Expr.product fs).Fixed)
    (hperm : gs.Perm fs) (hsame : List.Forall₂ Same pieces gs) :
    (pieces.filterMap Simplify.power?).Pairwise fun p q => Simplify.alikePowers p q = false := by
  have hbases : (nonConstants gs).Pairwise fun f g => (f.base == g.base) = false :=
    (hperm.symm.filter _).pairwise h.collectedFactors.bases Expr.beq_symm
  refine List.pairwise_filterMap.mpr (hsame.flip.pairwise (List.pairwise_filter.mp hbases)
    fun {f g p q} (hp : Same p f) (hq : Same q g) hfg => ?_)
  rintro ⟨b, x⟩ hb ⟨c, y⟩ hc
  obtain rfl := Simplify.power?_eq_some hb
  obtain rfl := Simplify.power?_eq_some hc
  cases hp.node with
  | binary _ hbase _ =>
    cases hq.node with
    | binary _ hbase' _ => exact (hbase.beq_eq hbase').trans (hfg rfl rfl)

/-- **The product of the first powers** of the factors of a fixed product is the product. -/
theorem product_first {depth : Nat} {fs : List (Expr α)} {r : Expr α}
    (h : (Expr.product fs).Fixed)
    (hr : Simplify.multiplyFactors (Simplify.solve depth)
      (fs.map fun f => .power f (.const Scalar.one)) = some r) : Same r (.product fs) := by
  have hcollected := h.collectedFactors
  set ps := fs.map fun f => Expr.power f (.const Scalar.one) with hps
  have hpower : ∀ p ∈ ps, ∃ f, p = .power f (.const Scalar.one) := fun p hp => by
    obtain ⟨f, -, rfl⟩ := List.mem_map.mp hp
    exact ⟨f, rfl⟩
  have hlength : 2 ≤ ps.length := by
    rw [hps, List.length_map]
    exact h.two_le_length
  rw [Simplify.multiplyFactors_of_not_const hlength fun p hp => by
    obtain ⟨f, rfl⟩ := hpower p hp
    rfl] at hr
  split at hr
  · next ts hts =>
    obtain ⟨s, hs, hsum⟩ := Simplify.isSum_of_distribute? hts
    obtain ⟨f, rfl⟩ := hpower s (StableSort.mem_sort.mp hs)
    cases hsum
  · -- the powers in ascending order are first powers of the factors in some order
    have hfirst : List.Forall₂ (fun p f => p = .power f (.const Scalar.one)) ps fs :=
      List.forall₂_map_left_iff.mpr (List.forall₂_same.mpr fun _ _ => rfl)
    obtain ⟨gs, hgs, hperm⟩ := List.perm_comp_forall₂
      (Expr.arrange_perm .product ps : (Expr.ascending ps).Perm ps) hfirst
    have hsorted : ∀ p ∈ Expr.ascending ps, ∃ f, p = .power f (.const Scalar.one) := fun p hp =>
      hpower p (StableSort.mem_sort.mp hp)
    have hnotCompound : ∀ p ∈ Expr.ascending ps, p.isCompound = false := fun p hp => by
      obtain ⟨f, rfl⟩ := hsorted p hp
      rfl
    have hnonConstants : nonConstants (Expr.ascending ps) = Expr.ascending ps :=
      List.filter_eq_self.mpr fun p hp => by
        obtain ⟨f, rfl⟩ := hsorted p hp
        rfl
    have hexpand : Simplify.expandFractions (Simplify.solve depth) (Expr.ascending ps) =
        some (Expr.ascending ps) := Simplify.expandFractions_of_not_compound hnotCompound
    have hflat := Simplify.factorsOfList_of_not_compound hnotCompound
    rcases hpieces : Simplify.asPowers (Simplify.solve depth) (Expr.ascending ps) with _ | pieces
    · simp [Simplify.multiplyPowers, hexpand, hflat, hnonConstants, hpieces] at hr
    · have hfactor : ∀ g ∈ gs, g.Fixed ∧ g.isCompound = false := fun g hg =>
        ⟨h.child (hperm.mem_iff.mp hg), hcollected.not_compound g (hperm.mem_iff.mp hg)⟩
      have hsame := Simplify.asPowers_first hgs hfactor hpieces
      have hresult := Simplify.multiplyPowers_distinct hexpand (by rwa [hflat, hnonConstants])
        (h.powers_distinct hperm hsame)
        (((List.forall₂_and_left gs pieces).mpr ⟨hfactor, hsame.flip⟩).flip.imp
          fun p g (hp : (g.Fixed ∧ g.isCompound = false) ∧ Same p g) _ hs =>
            ((hp.1.1.same hp.2.symm).step hs).trans hp.2)
        (fun g hg => hcollected.above g (hperm.mem_iff.mp hg)) hr
      have hnone : coefficient (Simplify.factorsOfList (Expr.ascending ps)) = [] := by
        rw [hflat]
        exact Simplify.coefficient_of_none (List.filter_eq_nil_iff.mpr fun p hp => by
          obtain ⟨f, rfl⟩ := hsorted p hp
          exact Bool.false_ne_true)
      rw [hnone, List.nil_append] at hresult
      have horder : Same (Expr.productOf gs) (Expr.productOf fs) :=
        .nary .product (Expr.arrange_perm_same .product hperm)
      rw [← h.downgrade_productOf]
      exact hresult.trans horder.downgrade

/-- **A step takes the first power of a fixed expression** other than a fraction back to the
expression. -/
theorem step_power_one {depth : Nat} {e r : Expr α} (h : e.Fixed) (hfraction : e.isFraction = false)
    (hr : Simplify.solve depth (.step (.power e (.const Scalar.one))) = some r) : Same r e := by
  by_cases hproduct : ∃ fs, e = .product fs
  · obtain ⟨fs, rfl⟩ := hproduct
    match depth with
    | 0 | 1 => cases hr
    | depth + 2 => exact h.product_first hr
  · have hcompound : e.isCompound = false := by
      unfold Expr.isCompound
      split
      · cases hfraction
      · exact absurd ⟨_, rfl⟩ hproduct
      · rfl
    exact Simplify.step_power_one_of_not_compound h hcompound hr

/-- **Twice a fixed product** with the coefficient one half is the product of its other factors. -/
theorem two_times_half {depth : Nat} {c : α} {gs : List (Expr α)} {r : Expr α}
    (h : (Expr.product (.const c :: gs)).Fixed)
    (hhalf : Scalar.eq (Scalar.add c c) Scalar.one = true)
    (hr : Simplify.multiplyFactors (Simplify.solve depth)
      [.const Scalar.two, .product (.const c :: gs)] = some r) :
    Same r (Expr.product gs).downgrade := by
  have hcollected := h.collectedFactors
  have hconst : ∀ g ∈ gs, g.isConst = false := by
    rcases hcollected.const_first with hnone | ⟨_, _, heq, hgs⟩
    · cases hnone _ List.mem_cons_self
    · obtain ⟨-, rfl⟩ := List.cons.inj heq
      exact hgs
  have hnonConstants : nonConstants (.const c :: gs) = gs :=
    (List.filter_cons_of_neg (by simp [Expr.isConst, Expr.constant?])).trans
      (Expr.nonConstants_eq_self hconst)
  have hcoefficient : coefficient (.const Scalar.two :: .const c :: gs) = [] := by
    have htotal : Scalar.product (Simplify.constantsOf (.const Scalar.two :: .const c :: gs)) =
        Scalar.mul (Scalar.mul Scalar.one Scalar.two) c :=
      congrArg (fun xs => Scalar.product (Scalar.two :: c :: xs)) (Expr.constantsOf_eq_nil hconst)
    simp only [coefficient, htotal]
    exact if_pos (((Scalar.two_coefficient c).eq_eq (.refl _)).trans hhalf)
  have hsame := h.multiplyFactors_product DoublingScalar.two_ne_zero DoublingScalar.two_ne_one hr
  rw [hcoefficient, hnonConstants, List.nil_append] at hsame
  have hsorted : Expr.ascending gs = gs :=
    StableSort.sort_eq_self (List.pairwise_cons.mp hcollected.sorted).2
  rwa [Expr.productOf, hsorted] at hsame

end Expr.Fixed

end SymbolicAlgebra
