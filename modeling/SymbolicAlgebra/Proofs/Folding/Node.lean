import SymbolicAlgebra.Evaluate
import SymbolicAlgebra.Proofs.Collected.Fixed
import SymbolicAlgebra.Proofs.Folding.Total
import SymbolicAlgebra.Proofs.Form.Numbers

/-! # Folding and evaluating

A node whose arguments are numbers is either folded to a number or left alone. What it is folded to
is the number it evaluates to, with four exceptions, in which a rule goes another way than
evaluation does (`Expr.Folded`): three or more terms are added in ascending order, a product with a
zero is zero, a quotient that is not whole is a product with a reciprocal, and the logarithms of the
base and of one are one and zero for every base. -/

namespace SymbolicAlgebra

variable {α : Type}

/-- **A node of numbers**, with its arguments in canonical order if there may be any number of
them. -/
structure Expr.ConstantNode [Scalar α] (e : Expr α) : Prop where
  isConst {a : Expr α} : a ∈ e.children → a.isConst = true
  arranged {f : Nary} {as : List (Expr α)} : e = .nary f as → ∃ bs, as = Expr.arrange f bs

/-- Numbers in canonical order make a node of numbers. -/
theorem Expr.ConstantNode.of_arranged [Scalar α] (f : Nary) {bs : List (Expr α)}
    (h : ∀ b ∈ bs, b.isConst = true) : (Expr.nary f (Expr.arrange f bs)).ConstantNode where
  isConst ha := h _ ((Expr.arrange_perm f bs).mem_iff.mp ha)
  arranged := by
    rintro _ _ ⟨⟩
    exact ⟨bs, rfl⟩

variable [Scalar α]

/-- The logarithm of the base is a number that can be divided by: it is not zero, and finite if the
argument is the base. -/
def ProperBase (base arg : α) : Prop :=
  Scalar.isNaN (Scalar.ln base) = false ∧ Scalar.eq (Scalar.ln base) Scalar.zero = false ∧
    (Scalar.Same arg base → Scalar.isFinite (Scalar.ln base) = true)

/-- **What the constant `c` that a node is folded to has to do with the value `v` of the node.** -/
def Expr.Folded (e : Expr α) (c v : α) : Prop :=
  match e with
  | .sum ts =>
    let xs := Scalar.nonzero (Simplify.constantsOf ts)
    (xs.length ≤ 2 → Scalar.Same c v) ∧
      (2 < xs.length →
        Scalar.Same c (Scalar.sum (Simplify.constantsOf (Expr.ascending (xs.map .const)))))
  | .product fs =>
    ((∀ f ∈ fs, f.isZero = false) → Scalar.Same c v) ∧
      ((∃ f ∈ fs, f.isZero = true) → Scalar.eq c Scalar.zero = true ∧
        (Scalar.eq v Scalar.zero = true ∨ Scalar.isNaN v = true))
  | .fraction (.const x) (.const y) =>
    (Scalar.isIntegral v = true → Scalar.Same c v) ∧
      (Scalar.isIntegral v = false →
        Scalar.Same c (Scalar.mul x (Scalar.pow y Scalar.negOne)) ∨
          Scalar.eq c Scalar.zero = true ∧
            (Scalar.eq x Scalar.zero = true ∨
              Scalar.eq (Scalar.pow y Scalar.negOne) Scalar.zero = true))
  | .log (.const base) (.const arg) =>
    (ProperBase base arg → Scalar.Same c v) ∧
      (Scalar.Same arg base → Scalar.eq c Scalar.one = true) ∧
      (¬ Scalar.Same arg base →
        Scalar.eq arg Scalar.one = true ∧ Scalar.eq c Scalar.zero = true)
  | _ => Scalar.Same c v

namespace Simplify

open Scalar (Same)

omit [Scalar α] in
theorem steps_map {solve : Solver α} (hs : KeepsConstants solve) : ∀ {xs : List α}
    {rs : List (Expr α)}, solve.steps (xs.map .const) = some rs → rs = xs.map .const
  | [], _, h => (Option.some.inj h).symm
  | x :: xs, rs, h => by
    simp only [List.map_cons, Solver.steps, Option.bind_eq_bind, Option.bind_eq_some_iff,
      Option.some.injEq] at h
    obtain ⟨r, hr, rest, hrest, rfl⟩ := h
    rw [hs.step hr, steps_map hs hrest]
    rfl

omit [Scalar α] in
theorem stepParts_constants {solve : Solver α} (hs : KeepsConstants solve) {f : Binary} {x y : α}
    {r : Expr α} (h : stepParts solve f (.const x) (.const y) = some r) :
    r = .binary f (.const x) (.const y) := by
  simp only [stepParts, Option.bind_eq_bind, Option.bind_eq_some_iff, Option.some.injEq] at h
  obtain ⟨a, ha, b, hb, rfl⟩ := h
  rw [hs.step ha, hs.step hb]

variable {solve : Solver α} (hs : KeepsConstants solve)

/-- Numbers are folded into one, which is what they evaluate to. -/
theorem foldConstants_value {f : Nary} {build : List (Expr α) → Expr α} {xs : List α} {c : α}
    (hbuild : ∀ es, build es ≠ .const c)
    (h : foldConstants f build (xs.map .const) = .const c) : c = f.apply xs := by
  have hnumbers : (xs.map Expr.const).filterMap Expr.constant? = xs := constantsOf_map xs
  obtain ⟨-, hfold⟩ | ⟨-, ⟨-, hfold⟩ | ⟨-, hfold⟩ | ⟨-, hfold⟩⟩ :=
    foldConstants_cases f build (xs.map .const)
  · exact absurd (hfold ▸ h) (hbuild _)
  · rw [hfold, hnumbers] at h
    exact (Expr.const.inj h).symm
  · exact absurd (hfold ▸ h) (hbuild _)
  · exact absurd (hfold ▸ h) (hbuild _)

include hs

/-- **A power of numbers** is folded to its value or left alone. -/
theorem stepPower_constants [UnitalScalar α] {x y : α} {r : Expr α}
    (h : stepPower solve (.const x) (.const y) = some r) :
    (∃ c, r = .const c ∧ Same c (Scalar.pow x y)) ∨ r = .power (.const x) (.const y) := by
  simp only [stepPower] at h
  cases he : constantPower? (.const x) y with
  | none =>
    rw [he] at h
    exact .inr (stepParts_constants hs h)
  | some e =>
    rw [he] at h
    obtain rfl := Option.some.inj h
    refine .inl ?_
    unfold constantPower? at he
    split at he
    · next value hvalue =>
      have hfold : foldPower? x y = some value := hvalue
      unfold foldPower? at hfold
      simp only at hfold
      split_ifs at hfold
      rw [← Option.some.inj he, ← Option.some.inj hfold]
      exact ⟨_, rfl, .refl _⟩
    · split_ifs at he with hzero hone
      · rw [← Option.some.inj he]
        exact ⟨_, rfl, (UnitalScalar.pow_zero hzero x).symm⟩
      · rw [← Option.some.inj he]
        exact ⟨_, rfl, (UnitalScalar.pow_one hone x).symm⟩

/-- **A logarithm of numbers** is folded only if its argument is the base or one. -/
theorem stepLog_constants [UnitalScalar α] {base arg c : α}
    (h : stepLog solve (.const base) (.const arg) = some (.const c)) :
    (Expr.log (.const base) (.const arg)).Folded c (Scalar.log base arg) := by
  have hbeq : ((Expr.const arg : Expr α) == .const base) = Scalar.same arg base := rfl
  unfold stepLog at h
  rw [hbeq] at h
  split_ifs at h with hsame
  · have hone := Expr.const.inj (Option.some.inj h)
    refine ⟨fun hproper => ?_, fun _ => hone ▸ UnitalScalar.one_eq_one, fun hne => ?_⟩
    · have hdiv := UnitalScalar.div_self (UnitalScalar.ln hsame) (hproper.2.2 hsame) hproper.2.1
      exact hone ▸ hdiv.symm
    · exact absurd hsame hne
  · simp only at h
    split_ifs at h with hone
    · have hzero := Expr.const.inj (Option.some.inj h)
      refine ⟨fun hproper => ?_, fun hsame' => absurd hsame' hsame,
        fun _ => ⟨hone, hzero ▸ UnitalScalar.zero_eq_zero⟩⟩
      have hdiv := UnitalScalar.zero_div (UnitalScalar.ln_one hone) hproper.1 hproper.2.1
      exact hzero ▸ hdiv.symm
    · cases stepParts_constants hs h

end Simplify

/-! ### Quotients -/

namespace Simplify

open Scalar (Same)

variable [UnitalScalar α] {x y c : α} {depth : Nat}

/-- **A reciprocal of a number** is folded to its value or left alone. -/
theorem solve_recip {r : Expr α} (h : solve depth (.step (Expr.recip (.const y))) = some r) :
    (∃ v, r = .const v ∧ Same v (Scalar.pow y Scalar.negOne)) ∨ r = Expr.recip (.const y) := by
  cases depth with
  | zero => cases h
  | succ depth => exact stepPower_constants (constants_solve depth) h

theorem isBelow_recip (e : Expr α) : isBelow e.recip = true := UnitalScalar.negOne_lt_zero

/-- A number times a reciprocal that is left alone is a fraction. -/
theorem multiplyPowers_recip {r : Expr α}
    (hrecip : ∃ depth, solve depth (.step (Expr.recip (.const y))) = some (Expr.recip (.const y)))
    (h : multiplyPowers (solve depth) [.const x, Expr.recip (.const y)] = some r) :
    ∃ num den, r = .fraction num den := by
  obtain ⟨depth', hrecip⟩ := hrecip
  have hstep {r : Expr α} (hr : solve depth (.step (Expr.recip (.const y))) = some r) :
      r = Expr.recip (.const y) := solve_unique hr hrecip
  simp only [multiplyPowers, Option.bind_eq_bind, Option.bind_eq_some_iff] at h
  obtain ⟨expanded, hexpanded, pieces, hpieces, powers, hpowers, stepped, hstepped, h⟩ := h
  obtain rfl : expanded = [.const x, Expr.recip (.const y)] := (Option.some.inj hexpanded).symm
  have hpiece : pieces = [Expr.recip (.const y)] := by
    change (solve depth (.step (Expr.recip (.const y)))).bind (fun e => some [e]) = _ at hpieces
    obtain ⟨e, he, hpieces⟩ := Option.bind_eq_some_iff.mp hpieces
    rw [← Option.some.inj hpieces, hstep he]
  subst hpiece
  have hpower : powers = [Expr.recip (.const y)] := by
    change (solve depth (.sum [.const Scalar.negOne])).bind
      (fun e => some [Expr.power (.const y) e]) = _ at hpowers
    obtain ⟨e, he, hpowers⟩ := Option.bind_eq_some_iff.mp hpowers
    cases depth with
    | zero => cases he
    | succ depth =>
      obtain rfl := Option.some.inj he
      exact (Option.some.inj hpowers).symm
  subst hpower
  have hmem : Expr.recip (.const y) ∈ stepped := by
    obtain ⟨r, hr, hstep'⟩ := (Solver.steps_forall₂ hstepped).exists_right
      (Expr.recip (.const y)) (by simp)
    rwa [← hstep hstep']
  rcases assemble_cases h with ⟨hnone, -⟩ | hfraction
  · have habove := hnone _ (StableSort.mem_sort.mpr hmem)
    rw [isBelow_recip] at habove
    cases habove
  · exact hfraction

/-- Such a product is folded to a number only if the number that is multiplied is zero. -/
theorem multiplyFactors_recip
    (hrecip : ∃ depth, solve depth (.step (Expr.recip (.const y))) = some (Expr.recip (.const y)))
    (h : multiplyFactors (solve depth) [.const x, Expr.recip (.const y)] = some (.const c)) :
    Scalar.eq c Scalar.zero = true ∧ Scalar.eq x Scalar.zero = true := by
  unfold multiplyFactors at h
  simp only at h
  split_ifs at h with hzero
  · obtain rfl := Expr.const.inj (Option.some.inj h)
    have hor : (Scalar.eq x Scalar.zero || false) = true := hzero
    exact ⟨UnitalScalar.zero_eq_zero, by simpa using hor⟩
  · rcases hone : Scalar.eq x Scalar.one
    · have hfilter : ([.const x, Expr.recip (.const y)].filter fun f => !f.isOne) =
          [.const x, Expr.recip (.const y)] := by
        simp [Expr.isOne, Expr.isConstant, Expr.constant?, Expr.recip, hone]
      simp only [hfilter] at h
      obtain ⟨num, den, hfraction⟩ := multiplyPowers_recip hrecip h
      cases hfraction
    · have hfilter : ([.const x, Expr.recip (.const y)].filter fun f => !f.isOne) =
          [Expr.recip (.const y)] := by
        simp [Expr.isOne, Expr.isConstant, Expr.constant?, Expr.recip, hone]
      rw [hfilter] at h
      cases h

/-- **A quotient of numbers** is folded to its value if that is whole, and else to a product. -/
theorem divide_constants
    (h : divide (solve depth) (.const x) (.const y) = some (.const c)) :
    (Expr.fraction (.const x) (.const y)).Folded c (Scalar.div x y) := by
  rw [divide.eq_4] at h
  split_ifs at h with hwhole
  · obtain rfl := Expr.const.inj (Option.some.inj h)
    exact ⟨fun _ => .refl _, fun hfalse => absurd hwhole (by rw [hfalse]; decide)⟩
  · refine ⟨fun hwhole' => absurd hwhole' hwhole, fun _ => ?_⟩
    simp only [multiplyReciprocal, Option.bind_eq_bind, Option.bind_eq_some_iff] at h
    obtain ⟨inverse, hinverse, h⟩ := h
    cases depth with
    | zero => cases h
    | succ depth =>
      change multiplyFactors (solve depth) [.const x, inverse] = some (.const c) at h
      rcases solve_recip hinverse with ⟨v, rfl, hv⟩ | rfl
      · have hnumbers : multiplyFactors (solve depth) ([x, v].map .const) = some (.const c) := h
        have hshort : [x, v].length ≤ 2 := Nat.le_refl 2
        have hvalue := multiplyFactors_value (constants_solve depth) (.inl hshort) hnumbers
        have hmul : Same (Scalar.product [x, v]) (Scalar.mul x (Scalar.pow y Scalar.negOne)) :=
          UnitalScalar.mul (UnitalScalar.one_mul UnitalScalar.one_eq_one x) hv
        by_cases hzero : ∃ z ∈ [x, v], Scalar.eq z Scalar.zero = true
        · refine .inr ⟨hvalue.1 hzero, ?_⟩
          simpa [hv.eq_eq (.refl Scalar.zero)] using hzero
        · refine .inl ((hvalue.2 ?_).trans hmul)
          simpa using hzero
      · have hzero := multiplyFactors_recip ⟨_, hinverse⟩ h
        exact .inr ⟨hzero.1, .inl hzero.2⟩

end Simplify

/-! ### Nodes -/

namespace Expr

theorem evalList_constants (b : Bindings α) : ∀ xs : List α,
    evalList b (xs.map .const) = .ok xs
  | [] => rfl
  | x :: xs => by
    rw [List.map_cons, evalList, evalList_constants b xs]
    rfl

end Expr

namespace Simplify

open Scalar (Same)

variable [UnitalScalar α] {c : α} {depth : Nat}

omit [Scalar α] [UnitalScalar α] in
theorem stepArg_ne_const {solve : Solver α} {f : Unary} {a : Expr α} :
    stepArg solve f a ≠ some (.const c) := by
  intro h
  simp only [stepArg, Option.bind_eq_bind, Option.bind_eq_some_iff, Option.some.injEq] at h
  obtain ⟨_, -, h⟩ := h
  cases h

omit [UnitalScalar α] in
theorem stepFinite_value {solve : Solver α} {f : Unary} {x : α}
    (h : stepFinite solve f (.const x) = some (.const c)) : c = f.apply x := by
  simp only [stepFinite, Expr.constant?, Option.bind_some, finite?] at h
  split_ifs at h
  · exact (Expr.const.inj (Option.some.inj h)).symm
  · exact absurd h stepArg_ne_const

omit [UnitalScalar α] in
theorem stepTrig_value {solve : Solver α} {kind : Trig} {x : α}
    (h : stepTrig solve kind (.const x) = some (.const c)) : c = kind.apply x := by
  simp only [stepTrig, foldTrig?, Expr.constant?, Option.bind_some] at h
  split_ifs at h
  · exact (Expr.const.inj (Option.some.inj h)).symm
  · exact absurd h stepArg_ne_const

omit [UnitalScalar α] in
theorem stepMod_value {solve : Solver α} (hs : KeepsConstants solve) {x y : α}
    (h : stepMod solve (.const x) (.const y) = some (.const c)) : c = Scalar.rem x y := by
  simp only [stepMod, finite?] at h
  split_ifs at h
  · exact (Expr.const.inj (Option.some.inj h)).symm
  · cases stepParts_constants hs h

omit [UnitalScalar α] in
theorem stepExtremum_constants {solve : Solver α} (hs : KeepsConstants solve) (f : Nary)
    (build : List (Expr α) → Expr α) {xs : List α} (hbuild : ∀ es, build es ≠ .const c)
    (h : (do
      let args ← solve.steps (xs.map .const)
      some (foldConstants f build args)) = some (.const c)) : c = f.apply xs := by
  simp only [Option.bind_eq_bind, Option.bind_eq_some_iff, Option.some.injEq] at h
  obtain ⟨args, hargs, h⟩ := h
  rw [steps_map hs hargs] at h
  exact foldConstants_value hbuild h

theorem stepFraction_constants {x y : α}
    (h : stepNode (solve depth) (.fraction (.const x) (.const y)) = some (.const c)) :
    (Expr.fraction (.const x) (.const y)).Folded c (Scalar.div x y) := by
  have hs := constants_solve (α := α) depth
  change stepFraction (solve depth) (.const x) (.const y) = some (.const c) at h
  simp only [stepFraction, Option.bind_eq_bind, Option.bind_eq_some_iff] at h
  obtain ⟨a, ha, d, hd, h⟩ := h
  rw [hs.step ha, hs.step hd] at h
  exact divide_constants h

theorem stepSum_constants {xs : List α}
    (h : stepNode (solve depth) (.sum (xs.map .const)) = some (.const c)) :
    (Expr.sum (xs.map .const)).Folded c (Scalar.sum xs) := by
  simp only [stepNode, Option.bind_eq_bind, Option.bind_eq_some_iff] at h
  obtain ⟨ts, hts, h⟩ := h
  rw [steps_map (constants_solve depth) hts] at h
  cases depth with
  | zero => cases h
  | succ depth =>
    have hvalue := addTerms_value (constants_solve depth) h
    rw [Expr.Folded, constantsOf_map]
    exact hvalue

theorem stepProduct_constants {xs : List α}
    (he : (Expr.product (xs.map .const)).ConstantNode)
    (h : stepNode (solve depth) (.product (xs.map .const)) = some (.const c)) :
    (Expr.product (xs.map .const)).Folded c (Scalar.product xs) := by
  simp only [stepNode, Option.bind_eq_bind, Option.bind_eq_some_iff] at h
  obtain ⟨fs, hfs, h⟩ := h
  rw [steps_map (constants_solve depth) hfs] at h
  obtain ⟨bs, hbs⟩ := he.arranged rfl
  cases depth with
  | zero => cases h
  | succ depth =>
    have hsorted := hbs ▸ Expr.arrange_pairwise .product bs
    have hvalue := multiplyFactors_value (constants_solve depth) (.inr hsorted) h
    refine ⟨fun hnone => hvalue.2 fun x hx => hnone _ (List.mem_map_of_mem hx), fun hzero => ?_⟩
    obtain ⟨f, hf, hzero⟩ := hzero
    obtain ⟨x, hx, rfl⟩ := List.mem_map.mp hf
    exact ⟨hvalue.1 ⟨x, hx, hzero⟩, Scalar.product_of_zero hzero hx⟩

/-- **What a step makes of a node of numbers** has to do with its value as `Folded` says. -/
theorem stepNode_folded {e : Expr α} (he : e.ConstantNode)
    (h : stepNode (solve depth) e = some (.const c)) (b : Bindings α) :
    ∃ v, e.eval b = .ok v ∧ e.Folded c v := by
  have hs := constants_solve (α := α) depth
  cases e with
  | const x =>
    obtain rfl := Expr.const.inj (Option.some.inj h)
    exact ⟨x, rfl, Same.refl x⟩
  | var _ => cases h
  | unary f a =>
    obtain ⟨x, rfl⟩ := Expr.isConst_iff_exists.mp (he.isConst List.mem_cons_self)
    refine ⟨f.apply x, rfl, ?_⟩
    have hvalue : c = f.apply x := by
      cases f with
      | trig _ => exact stepTrig_value h
      | _ => exact stepFinite_value h
    exact hvalue ▸ .refl c
  | binary f a d =>
    obtain ⟨x, rfl⟩ := Expr.isConst_iff_exists.mp (he.isConst List.mem_cons_self)
    obtain ⟨y, rfl⟩ := Expr.isConst_iff_exists.mp
      (he.isConst (List.mem_cons_of_mem _ List.mem_cons_self))
    refine ⟨f.apply x y, rfl, ?_⟩
    cases f with
    | fraction => exact stepFraction_constants h
    | power =>
      rcases stepPower_constants hs h with ⟨v, hv, hsame⟩ | hpower
      · exact Expr.const.inj hv ▸ hsame
      · cases hpower
    | log => exact stepLog_constants hs h
    | mod => exact stepMod_value hs h ▸ .refl c
  | nary f as =>
    obtain ⟨xs, rfl⟩ := exists_map_const fun a => he.isConst (a := a)
    refine ⟨f.apply xs, by rw [Expr.eval, Expr.evalList_constants]; rfl, ?_⟩
    cases f with
    | sum => exact stepSum_constants h
    | product => exact stepProduct_constants he h
    | min =>
      have hvalue := stepExtremum_constants hs .min Expr.minOf (fun _ hmin => by cases hmin) h
      exact hvalue ▸ Same.refl c
    | max =>
      have hvalue := stepExtremum_constants hs .max Expr.maxOf (fun _ hmax => by cases hmax) h
      exact hvalue ▸ Same.refl c

end Simplify

end SymbolicAlgebra
