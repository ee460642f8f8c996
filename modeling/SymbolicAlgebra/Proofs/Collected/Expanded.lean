import SymbolicAlgebra.Proofs.Collected.Classes
import SymbolicAlgebra.Proofs.Collected.Simple

/-! # Fixed factors taken apart

A fixed factor that is no fraction is flattened to simple factors, and so is one over it
(`flat_simple`). A fraction within a fraction is left in the flat list of factors. It is raised to
one, and taking that power apart leaves parts that are not fixed; so if collecting loses nothing and
comes to fixed expressions, there is none (`Collects.not_fraction`). -/

namespace SymbolicAlgebra

open SymbolicAlgebra.Expr (Same Fixed TameBelow Within Simple bulk)

variable {α : Type}

namespace Expr

theorem isBase_of_not_compound {e : Expr α} (h : e.isCompound = false)
    (hpower : ∀ b x, e = power b x → False) : e.isBase = true := by
  cases e with
  | const _ => rfl
  | var _ => rfl
  | unary _ _ => rfl
  | binary f a b =>
    cases f with
    | fraction => cases h
    | power => exact absurd rfl (hpower a b)
    | log => rfl
    | mod => rfl
  | nary f as =>
    cases f with
    | product => cases h
    | _ => rfl

variable [Scalar α]

/-- A fixed expression that is not compound is simple. -/
theorem Simple.of_fixed {n : Nat} (hn : TameBelow α n) {e : Expr α} (hfixed : e.Fixed)
    (hsize : e.size < n) (hcompound : e.isCompound = false) : Simple e := by
  by_cases hpower : ∃ b x, e = Expr.power b x
  · obtain ⟨b, x, rfl⟩ := hpower
    exact .power hfixed.power_base (hn.base hfixed hsize) x
  · exact .base hfixed (isBase_of_not_compound hcompound fun b x h => hpower ⟨b, x, h⟩)

end Expr

namespace Simplify

/-! ### Flattening -/

theorem mem_factorsOfList {f : Expr α} {es : List (Expr α)} :
    f ∈ factorsOfList es ↔ ∃ e ∈ es, f ∈ factorsOf e := by
  induction es with
  | nil => simp [factorsOfList]
  | cons e es ih => simp [factorsOfList, ih]

theorem factorsOf_of_not_compound {e : Expr α} (h : e.isCompound = false) :
    factorsOf e = [e] := by
  unfold factorsOf
  split
  · cases h
  · rfl

theorem factorsOfList_of_not_compound {es : List (Expr α)}
    (h : ∀ e ∈ es, e.isCompound = false) : factorsOfList es = es := by
  induction es with
  | nil => rfl
  | cons e es ih =>
    obtain ⟨he, hes⟩ := List.forall_mem_cons.mp h
    rw [factorsOfList, factorsOf_of_not_compound he, ih hes, List.singleton_append]

variable [Scalar α] {n a : Nat} {solve : Solver α}

theorem factorsOf_simple (hn : TameBelow α n) {e : Expr α} (hfixed : e.Fixed) (hsize : e.size < n)
    (hfraction : ∀ x y, e ≠ .fraction x y) : ∀ f ∈ factorsOf e, Simple f := by
  by_cases hproduct : ∃ fs, e = .product fs
  · obtain ⟨fs, rfl⟩ := hproduct
    have hfactor := hn.factor hfixed hsize
    rw [factorsOf, factorsOfList_of_not_compound hfactor]
    intro f hf
    have hlt := Expr.size_lt_of_mem_children (e := .product fs) hf
    exact .of_fixed hn (hfixed.child hf) (by omega) (hfactor f hf)
  · have hcompound : e.isCompound = false := by
      unfold Expr.isCompound
      split
      · exact absurd rfl (hfraction _ _)
      · exact absurd ⟨_, rfl⟩ hproduct
      · rfl
    rw [factorsOf_of_not_compound hcompound]
    exact List.forall_mem_singleton.mpr (.of_fixed hn hfixed hsize hcompound)

/-! ### Reciprocals -/

theorem reciprocal_of_not_compound (hn : TameBelow α n) {e : Expr α} {fs : List (Expr α)}
    (hfixed : e.Fixed) (hsize : e.size < n) (hcompound : e.isCompound = false)
    (h : reciprocal solve e = some fs) : ∀ f ∈ fs, Simple f := by
  by_cases hpower : ∃ b x, e = .power b x
  · obtain ⟨b, x, rfl⟩ := hpower
    simp only [reciprocal, Option.bind_eq_bind, Option.bind_eq_some_iff, Option.some.injEq] at h
    obtain ⟨negated, -, rfl⟩ := h
    exact List.forall_mem_singleton.mpr (.power hfixed.power_base (hn.base hfixed hsize) negated)
  · have hpower : ∀ b x, e = .power b x → False := fun b x h => hpower ⟨b, x, h⟩
    have hproduct : ∀ gs, e = .product gs → False := by
      rintro gs rfl
      cases hcompound
    rw [reciprocal.eq_3 solve e hpower hproduct, Option.some.injEq] at h
    rw [← h]
    exact List.forall_mem_singleton.mpr
      (.power hfixed (Expr.isBase_of_not_compound hcompound hpower) _)

theorem reciprocals_of_not_compound (hn : TameBelow α n) {es fs : List (Expr α)}
    (hes : ∀ e ∈ es, e.Fixed ∧ e.size < n ∧ e.isCompound = false)
    (h : reciprocals solve es = some fs) : ∀ f ∈ fs, Simple f := by
  induction es generalizing fs with
  | nil =>
    rw [reciprocals, Option.some.injEq] at h
    simp [← h]
  | cons e es ih =>
    simp only [reciprocals, Option.bind_eq_bind, Option.bind_eq_some_iff, Option.some.injEq] at h
    obtain ⟨first, hfirst, rest, hrest, rfl⟩ := h
    obtain ⟨⟨hfixed, hsize, hcompound⟩, hes⟩ := List.forall_mem_cons.mp hes
    exact List.forall_mem_append.mpr
      ⟨reciprocal_of_not_compound hn hfixed hsize hcompound hfirst, ih hes hrest⟩

/-- **One over a fixed expression** that is no fraction is a product of simple factors. -/
theorem reciprocal_simple (hn : TameBelow α n) {e : Expr α} {fs : List (Expr α)}
    (hfixed : e.Fixed) (hsize : e.size < n) (hfraction : ∀ x y, e ≠ .fraction x y)
    (h : reciprocal solve e = some fs) : ∀ f ∈ fs, Simple f := by
  by_cases hproduct : ∃ gs, e = .product gs
  · obtain ⟨gs, rfl⟩ := hproduct
    rw [reciprocal] at h
    refine reciprocals_of_not_compound hn (fun g hg => ?_) h
    have hlt := Expr.size_lt_of_mem_children (e := .product gs) hg
    exact ⟨hfixed.child hg, by omega, hn.factor hfixed hsize g hg⟩
  · refine reciprocal_of_not_compound hn hfixed hsize ?_ h
    unfold Expr.isCompound
    split
    · exact absurd rfl (hfraction _ _)
    · exact absurd ⟨_, rfl⟩ hproduct
    · rfl

/-! ### Expansion -/

theorem expandFractions_of_not_compound {es : List (Expr α)} (h : ∀ e ∈ es, e.isCompound = false) :
    expandFractions solve es = some es := by
  induction es with
  | nil => rfl
  | cons e es ih =>
    obtain ⟨he, hes⟩ := List.forall_mem_cons.mp h
    have hfraction : ∀ x y, e = .fraction x y → False := by
      rintro x y rfl
      cases he
    rw [expandFractions.eq_3 solve e es hfraction, ih hes]
    rfl

theorem num_mem_expandFractions {x y : Expr α} : ∀ es fs : List (Expr α),
    expandFractions solve es = some fs → .fraction x y ∈ es → x ∈ fs := by
  refine expandFractions.induct _ ?nil ?fraction ?other
  case nil =>
    intro fs _ hmem
    cases hmem
  case fraction =>
    intro num den es ih fs h hmem
    simp only [expandFractions, Option.bind_eq_bind, Option.bind_eq_some_iff,
      Option.some.injEq] at h
    obtain ⟨below, -, rest, hrest, rfl⟩ := h
    rcases List.mem_cons.mp hmem with heq | hmem
    · cases heq
      exact List.mem_cons_self
    · exact List.mem_append_right _ (ih rest hrest hmem)
  case other =>
    intro e es he ih fs h hmem
    rw [expandFractions.eq_3 solve e es he] at h
    simp only [Option.bind_eq_bind, Option.bind_eq_some_iff, Option.some.injEq] at h
    obtain ⟨rest, hrest, rfl⟩ := h
    rcases List.mem_cons.mp hmem with heq | hmem
    · exact absurd heq.symm (he x y)
    · exact List.mem_cons_of_mem _ (ih rest hrest hmem)

/-- **Where the members of an expansion come from.** -/
theorem mem_expandFractions : ∀ es fs : List (Expr α), expandFractions solve es = some fs →
    ∀ f ∈ fs, (f ∈ es ∧ ∀ x y, f ≠ .fraction x y) ∨ ∃ x y, .fraction x y ∈ es ∧
      (f = x ∨ ∃ below, reciprocal solve y = some below ∧ f ∈ below) := by
  refine expandFractions.induct _ ?nil ?fraction ?other
  case nil =>
    intro fs h
    rw [expandFractions, Option.some.injEq] at h
    simp [← h]
  case fraction =>
    intro num den es ih fs h f hf
    simp only [expandFractions, Option.bind_eq_bind, Option.bind_eq_some_iff,
      Option.some.injEq] at h
    obtain ⟨below, hbelow, rest, hrest, rfl⟩ := h
    rcases List.mem_append.mp hf with hf | hf
    · refine .inr ⟨num, den, List.mem_cons_self, ?_⟩
      rcases List.mem_cons.mp hf with rfl | hf
      · exact .inl rfl
      · exact .inr ⟨below, hbelow, hf⟩
    · rcases ih rest hrest f hf with ⟨hmem, hfraction⟩ | ⟨x, y, hmem, h⟩
      · exact .inl ⟨List.mem_cons_of_mem _ hmem, hfraction⟩
      · exact .inr ⟨x, y, List.mem_cons_of_mem _ hmem, h⟩
  case other =>
    intro e es he ih fs h f hf
    rw [expandFractions.eq_3 solve e es he] at h
    simp only [Option.bind_eq_bind, Option.bind_eq_some_iff, Option.some.injEq] at h
    obtain ⟨rest, hrest, rfl⟩ := h
    rcases List.mem_cons.mp hf with rfl | hf
    · exact .inl ⟨List.mem_cons_self, fun x y h => he x y h⟩
    · rcases ih rest hrest f hf with ⟨hmem, hfraction⟩ | ⟨x, y, hmem, h⟩
      · exact .inl ⟨List.mem_cons_of_mem _ hmem, hfraction⟩
      · exact .inr ⟨x, y, List.mem_cons_of_mem _ hmem, h⟩

/-- **Fixed factors are flattened to simple ones**, if no fraction stands within a fraction. -/
theorem flat_simple [CongruentScalar α] (hn : TameBelow α n) {fs es : List (Expr α)}
    (hfs : ∀ f ∈ fs, f.Fixed ∧ f.size < n) (hes : expandFractions solve fs = some es)
    (hnum : ∀ x y, .fraction x y ∈ fs → ∀ c d, x ≠ .fraction c d) :
    ∀ f ∈ factorsOfList es, Simple f := by
  intro f hf
  obtain ⟨e, he, hf⟩ := mem_factorsOfList.mp hf
  rcases mem_expandFractions fs es hes e he with ⟨hmem, hfraction⟩ | ⟨x, y, hmem, hfrom⟩
  · exact factorsOf_simple hn (hfs e hmem).1 (hfs e hmem).2 hfraction f hf
  · obtain ⟨hfixed, hsize⟩ := hfs _ hmem
    have hx := Expr.size_lt_of_mem_children (e := .fraction x y) List.mem_cons_self
    have hy := Expr.size_lt_of_mem_children (e := .fraction x y)
      (List.mem_cons_of_mem _ List.mem_cons_self)
    rcases hfrom with rfl | ⟨below, hbelow, hmem'⟩
    · exact factorsOf_simple hn hfixed.num (by omega) (hnum _ y hmem) f hf
    · have hden : ∀ c d, y ≠ .fraction c d := by
        rintro c d rfl
        obtain ⟨u, v, rfl⟩ := hfixed.num_fraction
        exact hnum _ _ hmem u v rfl
      have hsimple := reciprocal_simple hn hfixed.den (by omega) hden hbelow e hmem'
      rw [factorsOf_of_not_compound hsimple.isCompound] at hf
      rwa [List.mem_singleton.mp hf]

/-! ### Fractions in the flat list -/

/-- A factor that is no power is raised to one. -/
theorem asPowers_one {e : Expr α} (he : ∀ b x, e = .power b x → False) : ∀ es ps : List (Expr α),
    asPowers solve es = some ps → e ∈ es →
      ∃ b, solve (.step e) = some b ∧ .power b (.const Scalar.one) ∈ ps := by
  refine asPowers.induct _ ?nil ?power ?other
  case nil =>
    intro ps _ hmem
    cases hmem
  case power =>
    intro b x es ih ps h hmem
    simp only [asPowers, Option.bind_eq_bind, Option.bind_eq_some_iff, Option.some.injEq] at h
    obtain ⟨p, -, rest, hrest, rfl⟩ := h
    rcases List.mem_cons.mp hmem with heq | hmem
    · exact absurd heq (he b x)
    · obtain ⟨c, hc, hp⟩ := ih rest hrest hmem
      exact ⟨c, hc, List.mem_cons_of_mem _ hp⟩
  case other =>
    intro f es hf ih ps h hmem
    rw [asPowers.eq_3 _ f es hf] at h
    simp only [Option.bind_eq_bind, Option.bind_eq_some_iff, Option.some.injEq] at h
    obtain ⟨b, hb, rest, hrest, rfl⟩ := h
    rcases List.mem_cons.mp hmem with rfl | hmem
    · exact ⟨b, hb, List.mem_cons_self⟩
    · obtain ⟨c, hc, hp⟩ := ih rest hrest hmem
      exact ⟨c, hc, List.mem_cons_of_mem _ hp⟩

variable [StandardScalar α]

/-- A power to one is not fixed. -/
theorem not_fixed_power_one {b : Expr α} (hbase : b.isBase = true) :
    ¬(Expr.power b (.const (Scalar.one : α))).Fixed := by
  intro hfixed
  obtain ⟨depth, r, hr, hsame⟩ := hfixed.solved
  change stepPower (solve depth) b (.const Scalar.one) = some r at hr
  have hvalue : ∃ v, constantPower? b (Scalar.one : α) = some v ∧ (v.isConst = true ∨ v = b) := by
    unfold constantPower?
    rcases b.constant?.bind fun value => foldPower? value Scalar.one with _ | value
    · simp only [StandardScalar.one_eq_zero, StandardScalar.one_eq_one, Bool.false_eq_true,
        if_false, if_true]
      exact ⟨b, rfl, .inr rfl⟩
    · exact ⟨_, rfl, .inl rfl⟩
  obtain ⟨v, hv, hcases⟩ := hvalue
  rw [stepPower.eq_5 _ b Scalar.one (by rintro _ _ rfl; cases hbase) (by rintro _ _ rfl; cases hbase)
    (by rintro _ rfl; cases hbase), hv] at hr
  obtain rfl := Option.some.inj hr
  rcases hcases with hconst | rfl
  · rw [hsame.isConst_eq] at hconst
    cases hconst
  · exact hsame.not_of_size (Expr.size_lt_of_mem_children List.mem_cons_self)

namespace Collects

variable {fs flat pieces powers stepped : List (Expr α)}

/-- If nothing is lost, then not where powers are collected. -/
theorem powers_bulk (h : Collects n a solve fs flat pieces powers stepped)
    (hprod : (fs.map bulk).prod ≤ (stepped.map bulk).prod) :
    ((pieces.filterMap power?).map fun p => (Expr.power p.1 p.2).bulk).prod ≤
      (powers.map bulk).prod := by
  have hpieces : (pieces.map bulk).prod = ((nonConstants flat).map bulk).prod :=
    prod_bulk_of_bulk_eq (h.pieces_bulk hprod)
  have hle : ((flat.filter Expr.isConst).map bulk).prod * (pieces.map bulk).prod ≤
      ((flat.filter Expr.isConst).map bulk).prod * ((powers.map bulk).prod *
        ((pieces.filter fun e => (power? e).isNone).map bulk).prod) := by
    calc _ = (flat.map bulk).prod := by
          rw [hpieces]
          exact (prod_bulk_filter Expr.isConst flat).symm
      _ ≤ (stepped.map bulk).prod := h.flat_le.trans hprod
      _ ≤ ((coefficient flat ++ powers ++
            pieces.filter fun e => (power? e).isNone).map bulk).prod :=
        Shrinks.prod_le h.stepped_shrink
      _ ≤ _ := by
        rw [List.map_append, List.map_append, List.prod_append, List.prod_append, Nat.mul_assoc]
        exact Nat.mul_le_mul_right _ (prod_bulk_coefficient flat)
  rw [← prod_bulk_pieces pieces] at hle
  exact Nat.le_of_mul_le_mul_right
    (Nat.le_of_mul_le_mul_left hle (Expr.prod_bulk_pos _)) (Expr.prod_bulk_pos _)

/-- If nothing is lost, then powers of a base that counts are not merged. -/
theorem exponents_single (hs : Bounded n solve)
    (h : Collects n a solve fs flat pieces powers stepped)
    (hprod : (fs.map bulk).prod ≤ (stepped.map bulk).prod) {g : LikeBases α}
    (hg : g ∈ LikeBases.collect (pieces.filterMap power?)) (hbase : 2 ≤ g.base.bulk) :
    g.exponents.length = 1 := by
  have hne := LikeBases.exponents_collect (pieces.filterMap power?)
  have hwithin := LikeBases.collect_within (within_of_mem_powers (Shrinks.within h.pieces_shrink))
  refine Nat.le_antisymm (Nat.le_of_not_lt fun htwo => ?_) (List.length_pos_iff.mpr (hne g hg))
  have hlt := LikeBases.toPowers_lt hs hne hwithin h.combined g hg htwo fun e _ => by
    rw [Expr.bulk_power]
    exact hbase.trans (Nat.le_mul_of_pos_right _ (Nat.two_pow_pos _))
  have hle := h.powers_bulk hprod
  rw [LikeBases.heft_collect] at hlt
  omega

/-- **No fraction stands within a fraction**, if collecting loses nothing and comes to fixed
expressions. -/
theorem not_fraction (hn : TameBelow α n) {depth : Nat}
    (h : Collects n a (Simplify.solve depth) fs flat pieces powers stepped)
    (hprod : (fs.map bulk).prod ≤ (stepped.map bulk).prod) (hstepped : ∀ s ∈ stepped, s.Fixed)
    {c d : Expr α} (hfixed : (Expr.fraction c d).Fixed) (hsize : (Expr.fraction c d).size < n) :
    Expr.fraction c d ∉ nonConstants flat := by
  intro hmem
  obtain ⟨b, hb, hpiece⟩ := asPowers_one (fun _ _ heq => by cases heq) _ pieces h.asPowers hmem
  obtain ⟨g, hg, hbase, hone⟩ := LikeBases.exists_collect
    (List.mem_filterMap.mpr ⟨_, hpiece, rfl⟩ : (b, _) ∈ pieces.filterMap power?)
  have hfraction : Same g.base (.fraction c d) := hbase.trans (hfixed.step hb)
  have hsingle : g.exponents = [.const Scalar.one] := by
    have htwo : 2 ≤ g.base.bulk := hfraction.bulk_eq ▸ hfixed.two_le_bulk rfl
    obtain ⟨x, hx⟩ := List.length_eq_one_iff.mp
      (h.exponents_single (bounded_solve hn depth) hprod hg htwo)
    rw [hx] at hone ⊢
    rw [← List.mem_singleton.mp hone]
  obtain ⟨p, hp, s, hs, rfl⟩ := (LikeBases.toPowers_eq h.combined).exists_right g hg
  obtain ⟨r, hr, hstep⟩ := (Solver.steps_forall₂ h.steps).exists_right _
    (List.mem_append_left _ (List.mem_append_right _ hp))
  cases depth with
  | zero => cases hstep
  | succ depth =>
    have hs : s = .const Scalar.one := by
      rw [hsingle] at hs
      exact (Option.some.inj hs).symm
    obtain ⟨c', d', heq, hc⟩ : ∃ c' d', g.base = .fraction c' d' ∧ Same c' c := by
      generalize g.base = b at hfraction
      cases hfraction.node with
      | binary _ hc _ => exact ⟨_, _, rfl, hc⟩
    rw [hs, heq] at hstep
    have hr' : r = .fraction (.power c' (.const Scalar.one)) (.power d' (.const Scalar.one)) :=
      (Option.some.inj hstep).symm
    have hpower := (hr' ▸ hstepped r hr).num
    have hlt : (Expr.power c' (.const (Scalar.one : α))).size < n := by
      have hpos := d.size_pos
      simp only [Expr.size, hc.size_eq] at hsize ⊢
      omega
    exact not_fixed_power_one (hn.base hpower hlt) hpower

end Collects

end Simplify

end SymbolicAlgebra
