import SymbolicAlgebra.Proofs.Congruence.Shape
import SymbolicAlgebra.Simplify.Node

/-! # Single nodes of equal expressions

One step at a node treats equal nodes alike (`stepNode_congruent`). No rule lets the sign of a zero
through: where a function tells the zeros apart, its results are infinities, and these are not
folded. -/

namespace SymbolicAlgebra.Simplify

open SymbolicAlgebra.Expr (Same)

variable {α : Type} [Scalar α] [CongruentScalar α]

/-! ### Folding -/

theorem finite?_congruent {x y : α} (h : Scalar.Agree x y) :
    Option.Rel Same (finite? x) (finite? y) := by
  rw [finite?, finite?, ← h.isFinite_eq]
  split_ifs with hx
  · exact .some (h.same_of_isFinite hx)
  · exact .none

theorem foldPower?_congruent {x y x' y' : α} (h : Scalar.Same x x') (h' : Scalar.Same y y') :
    Option.Rel Scalar.Same (foldPower? x y) (foldPower? x' y') := by
  have hpow := CongruentScalar.pow h h'
  simp only [foldPower?]
  rcases hintegral : Scalar.isIntegral (Scalar.pow x y)
  · rw [← hpow.isIntegral_eq, hintegral]
    exact .none
  · have hsame := hpow.same_of_isIntegral hintegral
    rw [← hpow.isIntegral_eq, hintegral, ← hsame.lt_eq (.refl Scalar.thousand), Bool.true_and]
    split_ifs
    · exact .some hsame
    · exact .none

theorem constantPower?_congruent {a b : Expr α} {x y : α} (h : Same a b) (h' : Scalar.Same x y) :
    Option.Rel Same (constantPower? a x) (constantPower? b y) := by
  have hfold : Option.Rel Scalar.Same (a.constant?.bind fun value => foldPower? value x)
      (b.constant?.bind fun value => foldPower? value y) :=
    h.constant?_rel.bind fun _ _ hv => foldPower?_congruent hv h'
  unfold constantPower?
  generalize a.constant?.bind _ = u at hfold ⊢
  generalize b.constant?.bind _ = v at hfold ⊢
  cases hfold with
  | some hv => exact .some hv
  | none =>
    simp only [← h'.eq_eq (.refl _)]
    split_ifs
    · exact .some (.refl _)
    · exact .some h
    · exact .none

theorem foldTrig?_congruent (kind : Trig) {a b : Expr α} (h : Same a b) :
    Option.Rel Same (foldTrig? kind a) (foldTrig? kind b) := by
  refine h.constant?_rel.bind fun x y hxy => ?_
  have htrig := CongruentScalar.trig kind hxy
  simp only [← htrig.isIntegral_eq]
  split_ifs with hintegral
  · exact .some (htrig.same_of_isIntegral hintegral)
  · exact .none

theorem foldConstants_congruent (f : Nary) {build : List (Expr α) → Expr α}
    (hbuild : ∀ {as bs : List (Expr α)}, List.Forall₂ Same as bs → Same (build as) (build bs))
    {as bs : List (Expr α)} (h : List.Forall₂ Same as bs) :
    Same (foldConstants f build as) (foldConstants f build bs) := by
  have hrest := Expr.filter_same h (p := fun e => !e.isConst) fun hab => by rw [hab.isConst_eq]
  have hconstants := Expr.filter_same h (p := Expr.isConst) Same.isConst_eq
  have hvalues := Expr.constants_same hconstants
  have hfolded := finite?_congruent (.inl (f.apply_same hvalues))
  unfold foldConstants
  simp only
  generalize List.filterMap Expr.constant? (as.filter Expr.isConst) = xs at hvalues hfolded ⊢
  generalize List.filterMap Expr.constant? (bs.filter Expr.isConst) = ys at hvalues hfolded ⊢
  cases hvalues with
  | nil => exact hbuild hrest
  | @cons x y xs ys hx hxs =>
    simp only
    generalize finite? (f.apply (x :: xs)) = u at hfolded ⊢
    generalize finite? (f.apply (y :: ys)) = v at hfolded ⊢
    cases hfolded with
    | some hfolded =>
      simp only [Expr.isEmpty_eq hrest]
      split_ifs
      · exact hfolded
      · exact hbuild (List.rel_append hrest (.cons hfolded .nil))
    | none => exact hbuild (List.rel_append hrest hconstants)

omit [CongruentScalar α] in
/-- A result that is folded, or else what a rule gives. -/
theorem folded_or {x x' y y' : Option (Expr α)} : Option.Rel Same x x' → Option.Rel Same y y' →
    Option.Rel Same (match x with | some e => some e | none => y)
      (match x' with | some e => some e | none => y')
  | .some h, _ => .some h
  | .none, h => h

/-! ### Functions of one and two arguments -/

section Functions

variable {solve : Solver α} (hs : solve.Congruent)
include hs

omit [CongruentScalar α] in
theorem stepParts_congruent (f : Binary) {a b a' b' : Expr α} (h : Same a a') (h' : Same b b') :
    Option.Rel Same (stepParts solve f a b) (stepParts solve f a' b') :=
  (hs.step h).bind fun _ _ h => (hs.step h').bind fun _ _ h' => .some (.binary f h h')

omit [CongruentScalar α] in
theorem stepArg_congruent (f : Unary) {a b : Expr α} (h : Same a b) :
    Option.Rel Same (stepArg solve f a) (stepArg solve f b) :=
  (hs.step h).bind fun _ _ h => .some (.unary f h)

theorem stepFinite_congruent (f : Unary) {a b : Expr α} (h : Same a b) :
    Option.Rel Same (stepFinite solve f a) (stepFinite solve f b) :=
  folded_or (h.constant?_rel.bind fun _ _ hx => finite?_congruent (f.apply_agree hx))
    (stepArg_congruent hs f h)

theorem stepTrig_congruent (kind : Trig) {a b : Expr α} (h : Same a b) :
    Option.Rel Same (stepTrig solve kind a) (stepTrig solve kind b) := by
  refine folded_or (foldTrig?_congruent kind h) ?_
  have harg := stepArg_congruent hs (.trig kind) h
  cases h.node with
  | unary f hc =>
    cases f with
    | trig inner =>
      simp only
      split_ifs
      · exact hs.step hc
      · exact harg
    | _ => exact harg
  | _ => exact harg

theorem stepMod_congruent {a b a' b' : Expr α} (h : Same a a') (h' : Same b b') :
    Option.Rel Same (stepMod solve a b) (stepMod solve a' b') := by
  have hparts := stepParts_congruent hs .mod h h'
  cases h.node with
  | const hx =>
    cases h'.node with
    | const hy => exact folded_or (finite?_congruent (.inl (CongruentScalar.rem hx hy))) hparts
    | _ => exact hparts
  | _ => exact hparts

/-! ### Minima and maxima -/

theorem stepMin_congruent {as bs : List (Expr α)} (h : List.Forall₂ Same as bs) :
    Option.Rel Same (stepMin solve as) (stepMin solve bs) :=
  (hs.steps h).bind fun _ _ h => .some (foldConstants_congruent .min .minOf h)

theorem stepMax_congruent {as bs : List (Expr α)} (h : List.Forall₂ Same as bs) :
    Option.Rel Same (stepMax solve as) (stepMax solve bs) :=
  (hs.steps h).bind fun _ _ h => .some (foldConstants_congruent .max .maxOf h)

/-! ### Fractions -/

theorem multiplyReciprocal_congruent {a b a' b' : Expr α} (h : Same a a') (h' : Same b b') :
    Option.Rel Same (multiplyReciprocal solve a b) (multiplyReciprocal solve a' b') :=
  (hs.step h'.recip).bind fun _ _ h' => hs.product_pair h h'

theorem divide_congruent {a b a' b' : Expr α} (h : Same a a') (h' : Same b b') :
    Option.Rel Same (divide solve a b) (divide solve a' b') := by
  fun_cases divide solve a b with
  | case1 a b c d =>
    cases h.node with
    | binary _ ha hb =>
      cases h'.node with
      | binary _ hc hd =>
        refine (hs.step ha).bind fun _ _ ha => (hs.step hd).bind fun _ _ hd => ?_
        refine (hs.product_pair ha hd).bind fun _ _ hnum => ?_
        refine (hs.step hb).bind fun _ _ hb => (hs.step hc).bind fun _ _ hc => ?_
        exact (hs.product_pair hb hc).bind fun _ _ hden => .some (.binary .fraction hnum hden)
  | case2 b a c hb =>
    cases h.node with
    | binary _ ha hc =>
      rw [divide.eq_2 _ _ _ _ (h'.not_binary hb)]
      refine (hs.step ha).bind fun _ _ hnum => (hs.step hc).bind fun _ _ hc => ?_
      exact (hs.product_pair hc h').bind fun _ _ hden => .some (.binary .fraction hnum hden)
  | case3 a c d ha =>
    cases h'.node with
    | binary _ hc hd =>
      rw [divide.eq_3 _ _ _ _ (h.not_binary ha)]
      refine (hs.step hd).bind fun _ _ hd => (hs.product_pair h hd).bind fun _ _ hnum => ?_
      exact (hs.step hc).bind fun _ _ hden => .some (.binary .fraction hnum hden)
  | case4 x y hintegral =>
    cases h.node with
    | const hx =>
      cases h'.node with
      | const hy =>
        have hdiv := CongruentScalar.div hx hy
        rw [divide.eq_4, ← hdiv.isIntegral_eq, if_pos hintegral]
        exact .some (hdiv.same_of_isIntegral hintegral)
  | case5 x y hintegral =>
    cases h.node with
    | const hx =>
      cases h'.node with
      | const hy =>
        rw [divide.eq_4, ← (CongruentScalar.div hx hy).isIntegral_eq, if_neg hintegral]
        exact multiplyReciprocal_congruent hs h h'
  | case6 a b _ ha hb hconst =>
    rw [divide.eq_5 _ _ _ (h.not_binary ha) (h'.not_binary hb)]
    · exact multiplyReciprocal_congruent hs h h'
    · exact fun c d _ _ hc _ => h.not_binary ha c d hc
    · rintro x y rfl rfl
      cases h.node with | const _ => cases h'.node with | const _ => exact hconst _ _ rfl rfl

theorem stepFraction_congruent {a b a' b' : Expr α} (h : Same a a') (h' : Same b b') :
    Option.Rel Same (stepFraction solve a b) (stepFraction solve a' b') :=
  (hs.step h).bind fun _ _ h => (hs.step h').bind fun _ _ h' => divide_congruent hs h h'

/-! ### Powers and logarithms -/

/-- Powers of what is no fraction, power or product. -/
theorem stepPower_other_congruent {a b a' b' : Expr α}
    (hfraction : ∀ c d, a = .fraction c d → False) (hpower : ∀ c d, a = .power c d → False)
    (hproduct : ∀ cs, a = .product cs → False) (h : Same a a') (h' : Same b b') :
    Option.Rel Same (stepPower solve a b) (stepPower solve a' b') := by
  have hfraction' := h.not_binary hfraction
  have hpower' := h.not_binary hpower
  have hproduct' := h.not_nary hproduct
  have hparts := stepParts_congruent hs .power h h'
  have hother (hlog : ∀ c d, b = .log c d → False) (hconst : ∀ x, b = .const x → False) :
      Option.Rel Same (stepPower solve a b) (stepPower solve a' b') := by
    rw [stepPower.eq_6 _ _ _ hfraction hpower hproduct hlog hconst,
      stepPower.eq_6 _ _ _ hfraction' hpower' hproduct' (h'.not_binary hlog) (h'.not_const hconst)]
    exact hparts
  cases h'.node with
  | const hx =>
    rw [stepPower.eq_5 _ _ _ hfraction hpower hproduct,
      stepPower.eq_5 _ _ _ hfraction' hpower' hproduct']
    exact folded_or (constantPower?_congruent h hx) hparts
  | binary f hc hd =>
    by_cases hlog : f = .log
    · subst hlog
      rw [stepPower.eq_4 _ _ _ _ hfraction hpower hproduct,
        stepPower.eq_4 _ _ _ _ hfraction' hpower' hproduct', ← hc.beq_eq h]
      split_ifs
      · exact .some hd
      · exact hparts
    · exact hother (fun _ _ heq => hlog (Expr.binary.inj heq).1) nofun
  | _ => exact hother nofun nofun

theorem stepPower_congruent {a b a' b' : Expr α} (h : Same a a') (h' : Same b b') :
    Option.Rel Same (stepPower solve a b) (stepPower solve a' b') := by
  cases h.node with
  | binary f hc hd =>
    cases f with
    | fraction => exact .some (.binary .fraction (.binary .power hc h') (.binary .power hd h'))
    | power => exact (hs.product_pair h' hd).bind fun _ _ hp => .some (.binary .power hc hp)
    | _ => exact stepPower_other_congruent hs nofun nofun nofun h h'
  | nary f hcs =>
    cases f with
    | product => exact hs.product (List.rel_map (fun _ _ hc => hc.binary .power h') hcs)
    | _ => exact stepPower_other_congruent hs nofun nofun nofun h h'
  | _ => exact stepPower_other_congruent hs nofun nofun nofun h h'

theorem stepLog_congruent {a b a' b' : Expr α} (h : Same a a') (h' : Same b b') :
    Option.Rel Same (stepLog solve a b) (stepLog solve a' b') := by
  have hparts := stepParts_congruent hs .log h h'
  unfold stepLog
  rw [← h'.beq_eq h]
  split_ifs
  · exact .some (.refl _)
  · cases h'.node with
    | binary f hc hd =>
      cases f with
      | power =>
        simp only [← hc.beq_eq h]
        split_ifs
        · exact .some hd
        · exact hparts
      | _ => exact hparts
    | @const x y hx =>
      have hone : (Expr.const x).isOne = (Expr.const y).isOne := h'.isConstant_eq Scalar.one
      simp only [hone]
      split_ifs
      · exact .some (.refl _)
      · exact hparts
    | _ => exact hparts

end Functions

/-! ### Any node -/

theorem stepNode_congruent {solve : Solver α} (hs : solve.Congruent) {a b : Expr α}
    (h : Same a b) : Option.Rel Same (stepNode solve a) (stepNode solve b) := by
  cases h.node with
  | const _ => exact .some h
  | var _ => exact .some h
  | unary f hc =>
    cases f with
    | bracket kind => exact stepFinite_congruent hs (.bracket kind) hc
    | trig kind => exact stepTrig_congruent hs kind hc
    | sign => exact stepFinite_congruent hs .sign hc
  | binary f hc hd =>
    cases f with
    | fraction => exact stepFraction_congruent hs hc hd
    | power => exact stepPower_congruent hs hc hd
    | log => exact stepLog_congruent hs hc hd
    | mod => exact stepMod_congruent hs hc hd
  | nary f hcs =>
    cases f with
    | sum => exact (hs.steps hcs).bind fun _ _ hcs => hs.sum hcs
    | product => exact (hs.steps hcs).bind fun _ _ hcs => hs.product hcs
    | min => exact stepMin_congruent hs hcs
    | max => exact stepMax_congruent hs hcs

end SymbolicAlgebra.Simplify
