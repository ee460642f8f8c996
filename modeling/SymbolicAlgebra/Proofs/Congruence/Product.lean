import SymbolicAlgebra.Proofs.Congruence.Sum
import SymbolicAlgebra.Simplify.Product

/-! # Products of equal factors

Multiplying treats lists of equal factors alike (`multiplyFactors_congruent`): equal powers fall
into the same groups of like bases, and a factor belongs below the line exactly if an equal one
does. -/

namespace SymbolicAlgebra.Simplify

open SymbolicAlgebra.Expr (Same)

variable {α : Type} [Scalar α]

/-! ### Factors and powers -/

mutual

theorem factorsOf_same : ∀ {a b : Expr α}, Same a b →
    List.Forall₂ Same (factorsOf a) (factorsOf b)
  | .nary f _, _, h => by
    cases h.node with
    | nary _ hs =>
      cases f with
      | product => exact factorsOfList_same hs
      | _ => exact .cons h .nil
  | .const _, _, h | .var _, _, h | .unary _ _, _, h | .binary _ _ _, _, h => by
    cases h.node
    exact .cons h .nil

theorem factorsOfList_same : ∀ {as bs : List (Expr α)}, List.Forall₂ Same as bs →
    List.Forall₂ Same (factorsOfList as) (factorsOfList bs)
  | [], _, .nil => .nil
  | _ :: _, _, .cons h hs => List.rel_append (factorsOf_same h) (factorsOfList_same hs)

end

theorem power?_rel {a b : Expr α} (h : Same a b) :
    Option.Rel (fun p q => Same p.1 q.1 ∧ Same p.2 q.2) (power? a) (power? b) := by
  cases h.node with
  | binary f hc hd =>
    cases f with
    | power => exact .some ⟨hc, hd⟩
    | _ => exact .none
  | _ => exact .none

section Ordered

variable [OrderedScalar α]

/-! ### Distribution -/

theorem distribute?_congruent {as bs : List (Expr α)} (h : List.Forall₂ Same as bs) :
    Option.Rel (List.Forall₂ Same) (distribute? as) (distribute? bs) := by
  by_cases hshape : ∃ a c d, as = [a, .sum [c, d]]
  · obtain ⟨a, c, d, rfl⟩ := hshape
    match h with
    | .cons ha (.cons hb .nil) =>
      cases hb.node with
      | nary _ hterms =>
        match hterms with
        | .cons hc (.cons hd .nil) =>
          rw [distribute?.eq_1, distribute?.eq_1, ← ha.isSum_eq]
          split_ifs
          · exact .none
          · exact .some (.cons (.productOf (.cons ha (.cons hc .nil)))
              (.cons (.productOf (.cons ha (.cons hd .nil))) .nil))
  · rw [distribute?.eq_2 _ fun a c d heq => hshape ⟨a, c, d, heq⟩, distribute?.eq_2]
    · exact .none
    · rintro a c d rfl
      match h with
      | .cons ha (.cons hb .nil) =>
        cases hb.node with
        | nary _ hterms =>
          match hterms with
          | .cons hc (.cons hd .nil) => exact hshape ⟨_, _, _, rfl⟩

/-! ### Groups of like bases -/

namespace LikeBases

/-- Groups of equal powers. -/
structure Same (g g' : LikeBases α) : Prop where
  base : Expr.Same g.base g'.base
  exponents : List.Forall₂ Expr.Same g.exponents g'.exponents

theorem add_same {a b a' b' : Expr α} (h : Expr.Same a a') (h' : Expr.Same b b') :
    ∀ {gs gs' : List (LikeBases α)}, List.Forall₂ Same gs gs' →
      List.Forall₂ Same (add a b gs) (add a' b' gs')
  | _, _, .nil => .cons ⟨h, .cons h' .nil⟩ .nil
  | _, _, .cons hg hgs => by
    rw [add, add, ← hg.base.beq_eq h]
    split_ifs
    · exact .cons ⟨hg.base, List.rel_append hg.exponents (.cons h' .nil)⟩ hgs
    · exact .cons hg (add_same h h' hgs)

theorem collect_same {ps qs : List (Expr α × Expr α)}
    (h : List.Forall₂ (fun p q => Expr.Same p.1 q.1 ∧ Expr.Same p.2 q.2) ps qs) :
    List.Forall₂ Same (collect ps) (collect qs) :=
  List.rel_foldl (P := List.Forall₂ Same) (fun _ _ hgs _ _ hpq => add_same hpq.1 hpq.2 hgs) .nil h

omit [OrderedScalar α] in
theorem toPowers_congruent {solve : Solver α} (hs : solve.Congruent) :
    ∀ {gs gs' : List (LikeBases α)}, List.Forall₂ Same gs gs' →
      Option.Rel (List.Forall₂ Expr.Same) (toPowers solve gs) (toPowers solve gs')
  | _, _, .nil => .some .nil
  | _, _, .cons hg hgs =>
    (hs.sum hg.exponents).bind fun _ _ h => (toPowers_congruent hs hgs).bind fun _ _ h' =>
      .some (.cons (.binary .power hg.base h) h')

end LikeBases

/-! ### Reciprocals -/

theorem negateExponent_congruent {solve : Solver α} (hs : solve.Congruent) {a b : Expr α}
    (h : Same a b) : Option.Rel Same (negateExponent solve a) (negateExponent solve b) :=
  hs.product_pair (.refl _) h

end Ordered

mutual

theorem reciprocal_congruent [OrderedScalar α] {solve : Solver α} (hs : solve.Congruent) :
    ∀ {a b : Expr α}, Same a b →
      Option.Rel (List.Forall₂ Same) (reciprocal solve a) (reciprocal solve b)
  | .binary f _ _, _, h => by
    cases h.node with
    | binary _ hc hd =>
      cases f with
      | power =>
        exact (negateExponent_congruent hs hd).bind fun _ _ hd =>
          .some (.cons (.binary .power hc hd) .nil)
      | _ => exact .some (.cons h.recip .nil)
  | .nary f _, _, h => by
    cases h.node with
    | nary _ hcs =>
      cases f with
      | product => exact reciprocals_congruent hs hcs
      | _ => exact .some (.cons h.recip .nil)
  | .const _, _, h | .var _, _, h | .unary _ _, _, h => by
    cases h.node
    exact .some (.cons h.recip .nil)

theorem reciprocals_congruent [OrderedScalar α] {solve : Solver α} (hs : solve.Congruent) :
    ∀ {as bs : List (Expr α)}, List.Forall₂ Same as bs →
      Option.Rel (List.Forall₂ Same) (reciprocals solve as) (reciprocals solve bs)
  | [], _, .nil => .some .nil
  | _ :: _, _, .cons h h' =>
    (reciprocal_congruent hs h).bind fun _ _ h => (reciprocals_congruent hs h').bind fun _ _ h' =>
      .some (List.rel_append h h')

end

section Solve

variable {solve : Solver α} (hs : solve.Congruent)
include hs

section Ordered

variable [OrderedScalar α]

theorem expandFractions_congruent : ∀ {as bs : List (Expr α)}, List.Forall₂ Same as bs →
    Option.Rel (List.Forall₂ Same) (expandFractions solve as) (expandFractions solve bs)
  | _, _, .nil => .some .nil
  | a :: as, b :: bs, .cons h h' => by
    have hrest := expandFractions_congruent h'
    have hother (hfraction : ∀ c d, a = .fraction c d → False) :
        Option.Rel (List.Forall₂ Same) (expandFractions solve (a :: as))
          (expandFractions solve (b :: bs)) := by
      rw [expandFractions.eq_3 _ _ _ hfraction, expandFractions.eq_3 _ _ _ (h.not_binary hfraction)]
      exact hrest.bind fun _ _ hrest => .some (.cons h hrest)
    cases h.node with
    | binary f hc hd =>
      cases f with
      | fraction =>
        exact (reciprocal_congruent hs hd).bind fun _ _ hd => hrest.bind fun _ _ hrest =>
          .some (.cons hc (List.rel_append hd hrest))
      | _ => exact hother nofun
    | _ => exact hother nofun

theorem asPowers_congruent : ∀ {as bs : List (Expr α)}, List.Forall₂ Same as bs →
    Option.Rel (List.Forall₂ Same) (asPowers solve as) (asPowers solve bs)
  | _, _, .nil => .some .nil
  | a :: as, b :: bs, .cons h h' => by
    have hrest := asPowers_congruent h'
    have hother (hpower : ∀ c d, a = .power c d → False) :
        Option.Rel (List.Forall₂ Same) (asPowers solve (a :: as)) (asPowers solve (b :: bs)) := by
      rw [asPowers.eq_3 _ _ _ hpower, asPowers.eq_3 _ _ _ (h.not_binary hpower)]
      exact (hs.step h).bind fun _ _ h => hrest.bind fun _ _ hrest =>
        .some (.cons (.binary .power h (.refl _)) hrest)
    cases h.node with
    | binary f hc hd =>
      cases f with
      | power =>
        exact (hs.step h).bind fun _ _ h => hrest.bind fun _ _ hrest => .some (.cons h hrest)
      | _ => exact hother nofun
    | _ => exact hother nofun

theorem denominators_congruent : ∀ {as bs : List (Expr α)}, List.Forall₂ Same as bs →
    Option.Rel (List.Forall₂ Same) (denominators solve as) (denominators solve bs)
  | _, _, .nil => .some .nil
  | a :: as, b :: bs, .cons h h' => by
    have hrest := denominators_congruent h'
    cases h.node with
    | binary f hc hd =>
      cases f with
      | power =>
        refine (negateExponent_congruent hs hd).bind fun _ _ hd => ?_
        refine (hs.step (hc.binary .power hd)).bind fun _ _ h => ?_
        exact hrest.bind fun _ _ hrest => .some (.cons h hrest)
      | _ => exact hrest
    | _ => exact hrest

end Ordered

/-! ### The rule -/

variable [CongruentScalar α]

omit hs in
theorem isBelow_eq {a b : Expr α} (h : Same a b) : isBelow a = isBelow b := by
  cases h.node with
  | binary f _ hd =>
    cases f with
    | power => exact hd.isNegative_eq
    | _ => rfl
  | _ => rfl

omit hs in
theorem coefficient_of_total {as bs : List (Expr α)}
    (h : Scalar.Same (Scalar.product (constantsOf as)) (Scalar.product (constantsOf bs))) :
    List.Forall₂ Same (coefficient as) (coefficient bs) := by
  simp only [coefficient, ← h.eq_eq (.refl Scalar.one)]
  split_ifs
  · exact .nil
  · exact .cons (.of_numbers h) .nil

omit hs in
theorem coefficient_same {as bs : List (Expr α)} (h : List.Forall₂ Same as bs) :
    List.Forall₂ Same (coefficient as) (coefficient bs) :=
  coefficient_of_total (Nary.apply_same .product (Expr.constants_same h))

theorem assemble_congruent {as bs : List (Expr α)} (h : List.Forall₂ Same as bs) :
    Option.Rel Same (assemble solve as) (assemble solve bs) := by
  have habove := Expr.filter_same h (p := fun e => !isBelow e) fun hab => by rw [isBelow_eq hab]
  have hbelow := Expr.filter_same h isBelow_eq
  simp only [assemble, ← Expr.isEmpty_eq habove, ← Expr.isEmpty_eq hbelow]
  by_cases hempty : (as.filter isBelow).isEmpty = true
  · rw [if_pos hempty, if_pos hempty]
    exact .some (Same.nary .product habove).downgrade
  · rw [if_neg hempty, if_neg hempty]
    refine (denominators_congruent hs hbelow).bind fun dens dens' hdens => ?_
    have hover {num num' : Expr α} (hnum : Same num num') :
        Option.Rel Same (solve (.product dens) >>= fun den => some (.fraction num den))
          (solve (.product dens') >>= fun den => some (.fraction num' den)) :=
      (hs.product hdens).bind fun _ _ hden => .some (.binary .fraction hnum hden)
    split_ifs
    · exact hover (.refl _)
    · exact (hs.product habove).bind fun _ _ hnum => hover hnum

/-- **Factors that are flattened to the same** have the same product. -/
theorem multiplyPowers_flat {as bs es es' : List (Expr α)}
    (has : expandFractions solve as = some es) (hbs : expandFractions solve bs = some es')
    (hothers : List.Forall₂ Same (nonConstants (factorsOfList es))
      (nonConstants (factorsOfList es')))
    (hcoefficient : List.Forall₂ Same (coefficient (factorsOfList es))
      (coefficient (factorsOfList es'))) :
    Option.Rel Same (multiplyPowers solve as) (multiplyPowers solve bs) := by
  simp only [multiplyPowers, has, hbs, Option.bind_eq_bind, Option.bind_some]
  refine (asPowers_congruent hs hothers).bind fun _ _ hpieces => ?_
  have hpowers := LikeBases.collect_same (List.rel_filterMap (fun _ _ => power?_rel) hpieces)
  have hleftovers := Expr.filter_same hpieces (p := fun e => (power? e).isNone) fun hab =>
    (power?_rel hab).isNone_eq
  refine (LikeBases.toPowers_congruent hs hpowers).bind fun _ _ hpowers => ?_
  have hgrouped := List.rel_append (List.rel_append hcoefficient hpowers) hleftovers
  exact (hs.steps hgrouped).bind fun _ _ hstepped =>
    assemble_congruent hs (Expr.arrange_congr .product hstepped)

theorem multiplyPowers_congruent {as bs : List (Expr α)} (h : List.Forall₂ Same as bs) :
    Option.Rel Same (multiplyPowers solve as) (multiplyPowers solve bs) := by
  have hexpanded := expandFractions_congruent hs h
  generalize has : expandFractions solve as = x at hexpanded
  generalize hbs : expandFractions solve bs = y at hexpanded
  cases hexpanded with
  | some hexpanded =>
    have hflat := factorsOfList_same hexpanded
    exact multiplyPowers_flat hs has hbs (nonConstants_same hflat) (coefficient_same hflat)
  | none =>
    rw [multiplyPowers, multiplyPowers, has, hbs]
    exact .none

/-- Sorted factors, which are distributed over a sum or not. -/
theorem multiplySorted_congruent {as bs : List (Expr α)} (h : List.Forall₂ Same as bs) :
    Option.Rel Same
      (match distribute? as with
        | some terms => solve (.sum terms)
        | none => multiplyPowers solve as)
      (match distribute? bs with
        | some terms => solve (.sum terms)
        | none => multiplyPowers solve bs) := by
  have hterms := distribute?_congruent h
  generalize distribute? as = us at hterms ⊢
  generalize distribute? bs = vs at hterms ⊢
  cases hterms with
  | some hterms => exact hs.sum hterms
  | none => exact multiplyPowers_congruent hs h

theorem multiplyFactors_congruent {as bs : List (Expr α)} (h : List.Forall₂ Same as bs) :
    Option.Rel Same (multiplyFactors solve as) (multiplyFactors solve bs) := by
  have hothers := Expr.filter_same h (p := fun f => !f.isOne) fun hab => by
    rw [Expr.isOne, hab.isConstant_eq, Expr.isOne]
  have hzero : as.any Expr.isZero = bs.any Expr.isZero :=
    Expr.any_eq h (Same.isConstant_eq Scalar.zero)
  match h with
  | .nil => exact .some (.refl _)
  | .cons hc .nil => exact .some hc
  | .cons _ (.cons _ _) =>
    rw [multiplyFactors.eq_2 _ (_ :: _ :: _) nofun, multiplyFactors.eq_2 _ (_ :: _ :: _) nofun,
      ← hzero]
    split_ifs
    · exact .some (.refl _)
    · refine Expr.combined_or CongruentScalar.mul hothers ?_
      exact multiplySorted_congruent hs (Expr.arrange_congr .product hothers)

end Solve

end SymbolicAlgebra.Simplify
