import SymbolicAlgebra.Proofs.Collected.Expanded

/-! # Fixed expressions are tame

The factors of a fixed product are collected to the same product, so nothing is lost on the way
(`Recollects.lossless`), and therefore none of them is a product or a fraction
(`Fixed.factor_not_compound`). The base of a fixed power is no fraction, power or product
(`Fixed.base_isBase`): a power of one of them is taken apart. By induction on the size, all fixed
expressions are tame (`tameBelow`). -/

namespace SymbolicAlgebra

open SymbolicAlgebra.Expr (Same Fixed TameBelow Within Simple NearlySimple bulk)
open SymbolicAlgebra.Simplify (Collects)

variable {α : Type} [Scalar α] [StandardScalar α] {n : Nat}

namespace Expr

namespace Fixed

omit [StandardScalar α] in
theorem within (hn : TameBelow α n) {e : Expr α} (h : e.Fixed) (hsize : e.size < n) :
    Within n n e :=
  ⟨hn.tame h hsize, (atomSize_le_size e).trans hsize.le⟩

end Fixed

/-! ### Products -/

/-- **The factors of a fixed product are collected to the product.** -/
structure Recollects (n depth : Nat) (fs flat pieces powers stepped : List (Expr α)) : Prop where
  collects : Collects n n (Simplify.solve depth) (ascending (fs.filter fun f => !f.isOne))
    flat pieces powers stepped
  nonzero : ∀ f ∈ fs, f.isZero = false
  above : ∀ s ∈ stepped, Simplify.isBelow s = false
  again : (∃ s, stepped = [s] ∧ Same s (product fs)) ∨ List.Forall₂ Same (ascending stepped) fs

omit [StandardScalar α] in
theorem mem_sorted_nonones {fs : List (Expr α)} {f : Expr α}
    (h : f ∈ ascending (fs.filter fun f => !f.isOne)) : f ∈ fs ∧ f.isOne = false := by
  simpa using List.mem_filter.mp (StableSort.mem_sort.mp h)

omit [StandardScalar α] in
theorem prod_bulk_nonones (fs : List (Expr α)) :
    ((ascending (fs.filter fun f => !f.isOne)).map bulk).prod ≤ (fs.map bulk).prod := by
  rw [Simplify.prod_bulk_filter isOne fs]
  exact (Simplify.prod_bulk_perm (StableSort.sort_perm _ _)).le.trans
    (Nat.le_mul_of_pos_left _ (prod_bulk_pos _))

/-- Distributing the factors of a fixed product would lose bulk. -/
theorem Fixed.not_distributed (hn : TameBelow α n) {fs ts : List (Expr α)} {r : Expr α}
    {depth : Nat} (h : (product fs).Fixed) (hsize : (product fs).size ≤ n)
    (hts : Simplify.distribute? (ascending (fs.filter fun f => !f.isOne)) = some ts)
    (hr : Simplify.solve depth (.sum ts) = some r) : ¬Same r (product fs) := by
  intro hsame
  have hfactor : ∀ f ∈ ascending (fs.filter fun f => !f.isOne), f.Fixed ∧ f.size < n ∧
      f.isOne = false := fun f hf => by
    obtain ⟨hmem, hone⟩ := mem_sorted_nonones hf
    have hlt := size_lt_of_mem_children (e := product fs) hmem
    exact ⟨h.child hmem, by omega, hone⟩
  obtain ⟨f, hf, hbulk⟩ := Simplify.distribute?_bulk hts
  obtain ⟨hfixed, -, hone⟩ := hfactor f hf
  have htwo := hfixed.two_le_bulk hone
  have hle := ((Simplify.bounded_solve hn depth).sum (Simplify.distribute?_within
    (fun f hf => (hfactor f hf).1.within hn (hfactor f hf).2.1) hts) hr).2
  have hnonones := prod_bulk_nonones fs
  rw [hsame.bulk_eq, bulk_product] at hle
  omega

theorem Fixed.recollects (hn : TameBelow α n) {fs : List (Expr α)} (h : (product fs).Fixed)
    (hsize : (product fs).size ≤ n) :
    ∃ depth flat pieces powers stepped, Recollects n depth fs flat pieces powers stepped := by
  have hlt : ∀ f ∈ fs, f.size < (product fs).size := fun f hf =>
    size_lt_of_mem_children (e := product fs) hf
  obtain ⟨depth, r, hr, hsame⟩ := h.product_solved
  rcases Simplify.multiplyFactors_cases hr with hconst | hmem | ⟨hzero, ⟨ts, hts, hsum⟩ | hpowers⟩
  · rw [hsame.isConst_eq] at hconst
    cases hconst
  · exact absurd hsame (Same.not_of_size (hlt r hmem))
  · exact absurd hsame (h.not_distributed hn hsize hts hsum)
  · have hwithin : ∀ f ∈ ascending (fs.filter fun f => !f.isOne), Within n n f := fun f hf => by
      obtain ⟨hmem, -⟩ := mem_sorted_nonones hf
      exact (h.child hmem).within hn ((hlt f hmem).trans_le hsize)
    obtain ⟨flat, pieces, powers, stepped, hcollects, hassemble⟩ :=
      Simplify.multiplyPowers_collects (Simplify.bounded_solve hn depth) hwithin hpowers
    obtain ⟨habove, rfl⟩ : (∀ f ∈ ascending stepped, Simplify.isBelow f = false) ∧
        r = (product (ascending stepped)).downgrade := by
      refine (Simplify.assemble_cases hassemble).resolve_right ?_
      rintro ⟨num, den, rfl⟩
      cases hsame.node
    refine ⟨depth, flat, pieces, powers, stepped, hcollects, hzero,
      fun s hs => habove s (StableSort.mem_sort.mpr hs), ?_⟩
    rcases downgrade_product_cases (ascending stepped) with hconst | ⟨s, hs, hdown⟩ | ⟨-, hdown⟩
    · rw [hsame.isConst_eq] at hconst
      cases hconst
    · have hperm : stepped.Perm [s] := hs ▸ (StableSort.sort_perm _ stepped).symm
      exact .inl ⟨s, List.perm_singleton.mp hperm, hdown ▸ hsame⟩
    · rw [hdown] at hsame
      cases hsame.node with
      | nary _ hs => exact .inr hs

namespace Recollects

variable {depth : Nat} {fs flat pieces powers stepped : List (Expr α)}
  (hr : Recollects n depth fs flat pieces powers stepped)
include hr

/-- **Nothing is lost.** -/
theorem lossless : ((ascending (fs.filter fun f => !f.isOne)).map bulk).prod ≤
    (stepped.map bulk).prod := by
  refine (prod_bulk_nonones fs).trans (Eq.le ?_)
  rcases hr.again with ⟨s, rfl, hsame⟩ | hsame
  · rw [List.map_singleton, List.prod_singleton, hsame.bulk_eq, bulk_product]
  · rw [← Simplify.prod_bulk_same hsame]
    exact Simplify.prod_bulk_perm (StableSort.sort_perm _ stepped)

theorem fixed (h : (product fs).Fixed) : ∀ s ∈ stepped, s.Fixed := by
  rcases hr.again with ⟨s, rfl, hsame⟩ | hsame
  · exact List.forall_mem_singleton.mpr (h.same hsame.symm)
  · intro s hs
    obtain ⟨f, hf, hsame⟩ := hsame.exists_right s (StableSort.mem_sort.mpr hs)
    exact (h.child (e := product fs) hf).same hsame.symm

theorem flat_simple (hn : TameBelow α n) (h : (product fs).Fixed) (hsize : (product fs).size ≤ n) :
    ∀ f ∈ flat, Simple f := by
  have hfactor : ∀ f ∈ ascending (fs.filter fun f => !f.isOne), f.Fixed ∧ f.size < n := fun f hf => by
    obtain ⟨hmem, -⟩ := mem_sorted_nonones hf
    have hlt := size_lt_of_mem_children (e := product fs) hmem
    exact ⟨h.child hmem, by omega⟩
  obtain ⟨es, hes, rfl⟩ := hr.collects.expanded
  refine Simplify.flat_simple hn hfactor hes ?_
  rintro _ y hmem c d rfl
  obtain ⟨hfixed, hlt⟩ := hfactor _ hmem
  have hnum := size_lt_of_mem_children (e := fraction (fraction c d) y) List.mem_cons_self
  refine hr.collects.not_fraction hn hr.lossless (hr.fixed h) hfixed.num (hnum.trans hlt) ?_
  refine List.mem_filter.mpr ⟨Simplify.mem_factorsOfList.mpr ⟨fraction c d, ?_, ?_⟩, rfl⟩
  · exact Simplify.num_mem_expandFractions _ es hes hmem
  · exact List.mem_cons_self

theorem stepped_simple (hn : TameBelow α n) (h : (product fs).Fixed)
    (hsize : (product fs).size ≤ n) : ∀ s ∈ stepped, Simple s :=
  hr.collects.stepped_simple hn
    (fun f hf => .simple (hr.flat_simple hn h hsize f (List.mem_of_mem_filter hf))) hr.lossless

theorem same (hn : TameBelow α n) (h : (product fs).Fixed) (hsize : (product fs).size ≤ n) :
    List.Forall₂ Same (ascending stepped) fs := by
  refine hr.again.resolve_left ?_
  rintro ⟨s, rfl, hsame⟩
  have hsimple := (hr.stepped_simple hn h hsize s List.mem_cons_self).isCompound
  rw [hsame.isCompound_eq] at hsimple
  cases hsimple

end Recollects

namespace Fixed

/-- **No factor of a fixed product is a product or a fraction.** -/
theorem factor_not_compound (hn : TameBelow α n) {fs : List (Expr α)} (h : (product fs).Fixed)
    (hsize : (product fs).size ≤ n) : ∀ f ∈ fs, f.isCompound = false := by
  obtain ⟨depth, flat, pieces, powers, stepped, hr⟩ := h.recollects hn hsize
  intro f hf
  obtain ⟨s, hs, hsame⟩ := (hr.same hn h hsize).exists_left f hf
  rw [← hsame.isCompound_eq]
  exact (hr.stepped_simple hn h hsize s (StableSort.mem_sort.mp hs)).isCompound

/-! ### Powers -/

/-- **A power of a product is not fixed.** -/
theorem not_power_product (hn : TameBelow α n) {fs : List (Expr α)} {x : Expr α}
    (hsize : (power (product fs) x).size ≤ n) : ¬(power (product fs) x).Fixed := by
  intro h
  have hbase := h.power_base
  have hbaseSize : (product fs).size < (power (product fs) x).size :=
    size_lt_of_mem_children List.mem_cons_self
  have hexponentSize : x.size < (power (product fs) x).size :=
    size_lt_of_mem_children (List.mem_cons_of_mem _ List.mem_cons_self)
  have hcompound := hn.factor hbase (hbaseSize.trans_le hsize)
  have hfactorSize : ∀ f ∈ fs, f.size < (product fs).size := fun f hf =>
    size_lt_of_mem_children (e := product fs) hf
  obtain ⟨depth, r, hr, hsame⟩ := h.solved
  cases depth with
  | zero => cases hr
  | succ depth =>
    change Simplify.multiplyFactors (Simplify.solve depth) (fs.map fun f => power f x) = some r at hr
    have hmem : ∀ p ∈ ascending ((fs.map fun f => power f x).filter fun f => !f.isOne),
        ∃ f ∈ fs, p = power f x := fun p hp => by
      obtain ⟨f, hf, heq⟩ := List.mem_map.mp (mem_sorted_nonones hp).1
      exact ⟨f, hf, heq.symm⟩
    rcases Simplify.multiplyFactors_cases hr with hconst | hfactor | ⟨-, ⟨ts, hts, -⟩ | hpowers⟩
    · rw [hsame.isConst_eq] at hconst
      cases hconst
    · obtain ⟨f, hf, rfl⟩ := List.mem_map.mp hfactor
      cases hsame.node with
      | binary _ hsame _ => exact hsame.not_of_size (hfactorSize f hf)
    · -- powers are no sums, so nothing is distributed
      obtain ⟨s, hs, hsum⟩ := Simplify.isSum_of_distribute? hts
      obtain ⟨f, -, rfl⟩ := hmem s hs
      cases hsum
    · have hpower : ∀ p ∈ ascending ((fs.map fun f => power f x).filter fun f => !f.isOne),
          Within n n p ∧ NearlySimple p ∧ p.isCompound = false := fun p hp => by
        obtain ⟨f, hf, rfl⟩ := hmem p hp
        have hlt : f.size < n := by
          have := hfactorSize f hf
          omega
        have hfixed : f.Fixed := hbase.child hf
        refine ⟨⟨.power hfixed hlt (hcompound f hf) (hn.tame h.power_exponent (by omega)),
          Nat.max_le.mpr ⟨?_, ?_⟩⟩, ?_, rfl⟩
        · exact (atomSize_le_size f).trans hlt.le
        · exact (atomSize_le_size x).trans (by omega)
        · cases Simple.of_fixed hn hfixed hlt (hcompound f hf) with
          | base hb hbase => exact .simple (.power hb hbase x)
          | power hb hbase y => exact .power hb hbase y x
      obtain ⟨flat, pieces, powers, stepped, hcollects, hassemble⟩ :=
        Simplify.multiplyPowers_collects (Simplify.bounded_solve hn depth)
          (fun p hp => (hpower p hp).1) hpowers
      have hflat : ∀ f ∈ flat, NearlySimple f := by
        obtain ⟨es, hes, rfl⟩ := hcollects.expanded
        rw [Simplify.expandFractions_of_not_compound fun p hp => (hpower p hp).2.2,
          Option.some.injEq] at hes
        rw [← hes, Simplify.factorsOfList_of_not_compound fun p hp => (hpower p hp).2.2]
        exact fun p hp => (hpower p hp).2.1
      have hresolved := hcollects.stepped_resolved hn fun f hf => hflat f (List.mem_of_mem_filter hf)
      rcases Simplify.assemble_cases hassemble with ⟨-, rfl⟩ | ⟨num, den, rfl⟩
      · rcases downgrade_product_cases (ascending stepped) with hconst | ⟨s, hs, hdown⟩ | ⟨-, hdown⟩
        · rw [hsame.isConst_eq] at hconst
          cases hconst
        · rw [hdown] at hsame
          have hmem : s ∈ ascending stepped := hs ▸ List.mem_cons_self
          rcases hresolved s (StableSort.mem_sort.mp hmem) with hsimple | ⟨-, hlt⟩
          · cases (hsimple.same hsame).of_power.2
          · rw [hsame.size_eq] at hlt
            cases hn.base h hlt
        · rw [hdown] at hsame
          cases hsame.node
      · cases hsame.node

/-- **The base of a fixed power** stays the base of a power. -/
theorem base_isBase (hn : TameBelow α n) {b x : Expr α} (h : (power b x).Fixed)
    (hsize : (power b x).size ≤ n) : b.isBase = true := by
  obtain ⟨depth, r, hr, hsame⟩ := h.solved
  change Simplify.stepPower (Simplify.solve depth) b x = some r at hr
  cases b with
  | const _ => rfl
  | var _ => rfl
  | unary _ _ => rfl
  | binary f c d =>
    cases f with
    | fraction =>
      rw [← Option.some.inj hr] at hsame
      cases hsame.node
    | power =>
      simp only [Simplify.stepPower, Option.bind_eq_bind, Option.bind_eq_some_iff,
        Option.some.injEq] at hr
      obtain ⟨product, -, rfl⟩ := hr
      cases hsame.node with
      | binary _ hsame _ =>
        exact absurd hsame (Same.not_of_size (size_lt_of_mem_children List.mem_cons_self))
    | log => rfl
    | mod => rfl
  | nary f as =>
    cases f with
    | product => exact absurd h (not_power_product hn hsize)
    | _ => rfl

/-- **A fixed expression is tame** if the smaller ones are. -/
theorem tame (hn : TameBelow α n) {e : Expr α} (h : e.Fixed) (hsize : e.size ≤ n) :
    Tame (n + 1) e := by
  have hchild : ∀ a ∈ e.children, Tame (n + 1) a := fun a ha => by
    have hlt := size_lt_of_mem_children ha
    exact (hn.tame (h.child ha) (by omega)).mono (Nat.le_succ n)
  by_cases hatom : e.isAtom = true
  · exact .atom hatom h (by omega)
  · cases e with
    | const x => exact .const x
    | var c => exact .var c
    | unary f a => exact absurd rfl hatom
    | binary f a b =>
      cases f with
      | fraction =>
        exact .fraction (hchild a List.mem_cons_self)
          (hchild b (List.mem_cons_of_mem _ List.mem_cons_self))
      | power =>
        have hlt : a.size < (power a b).size := size_lt_of_mem_children List.mem_cons_self
        exact .power h.power_base ((hlt.trans_le hsize).trans (Nat.lt_succ_self n)) (isCompound_of_isBase (h.base_isBase hn hsize))
          (hchild b (List.mem_cons_of_mem _ List.mem_cons_self))
      | log => exact absurd rfl hatom
      | mod => exact absurd rfl hatom
    | nary f as =>
      cases f with
      | sum => exact .sum hchild
      | product => exact .product hchild
      | min => exact absurd rfl hatom
      | max => exact absurd rfl hatom

end Fixed

/-- **All fixed expressions are tame.** -/
theorem tameBelow (n : Nat) : TameBelow α n := by
  induction n with
  | zero =>
    exact
      { tame := fun _ h => absurd h (Nat.not_lt_zero _)
        base := fun _ h => absurd h (Nat.not_lt_zero _)
        factor := fun _ h => absurd h (Nat.not_lt_zero _) }
  | succ n ih =>
    exact
      { tame := fun h hsize => h.tame ih (Nat.le_of_lt_succ hsize)
        base := fun h hsize => h.base_isBase ih (Nat.le_of_lt_succ hsize)
        factor := fun h hsize => h.factor_not_compound ih (Nat.le_of_lt_succ hsize) }

end Expr

end SymbolicAlgebra
