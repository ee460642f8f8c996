import SymbolicAlgebra.Proofs.Collected.Fixed

/-! # Simple factors

A factor is *simple* if it is a fixed base or a power of one. A step at a simple factor gives a
simple one, unless the argument of a logarithm takes its place, which is fixed and loses bulk. So
what collecting simple factors comes to are simple factors and fixed expressions
(`Collects.stepped_resolved`), and if it does not lose bulk, they are all simple
(`Collects.stepped_simple`); in particular none of them is a product or a fraction. -/

namespace SymbolicAlgebra

open SymbolicAlgebra.Expr (Same Fixed TameBelow Within bulk)

variable {α : Type} [Scalar α]

namespace Expr

/-- A fixed base or a power of one. -/
inductive Simple : Expr α → Prop
  | base {b : Expr α} (hfixed : b.Fixed) (hbase : b.isBase = true) : Simple b
  | power {b : Expr α} (hfixed : b.Fixed) (hbase : b.isBase = true) (x : Expr α) :
    Simple (.power b x)

/-- A simple factor or a power of one. -/
inductive NearlySimple : Expr α → Prop
  | simple {e : Expr α} (h : Simple e) : NearlySimple e
  | power {b : Expr α} (hfixed : b.Fixed) (hbase : b.isBase = true) (x y : Expr α) :
    NearlySimple (.power (.power b x) y)

/-- A simple factor, or a fixed expression of size less than `n`. -/
def Resolved (n : Nat) (e : Expr α) : Prop := Simple e ∨ (e.Fixed ∧ e.size < n)

namespace Simple

theorem isCompound {e : Expr α} (h : Simple e) : e.isCompound = false := by
  cases h with
  | base _ hbase => exact isCompound_of_isBase hbase
  | power _ _ _ => rfl

theorem of_power {b x : Expr α} (h : Simple (.power b x)) : b.Fixed ∧ b.isBase = true := by
  cases h with
  | base _ hbase => cases hbase
  | power hfixed hbase _ => exact ⟨hfixed, hbase⟩

theorem of_not_power {e : Expr α} (h : Simple e) (he : ∀ b x, e = .power b x → False) :
    e.Fixed ∧ e.isBase = true := by
  cases h with
  | base hfixed hbase => exact ⟨hfixed, hbase⟩
  | power _ _ _ => exact absurd rfl (he _ _)

variable [CongruentScalar α]

theorem const (x : α) : Simple (.const x : Expr α) := .base (.const x) rfl

theorem same {e e' : Expr α} (h : Simple e) (hsame : Same e e') : Simple e' := by
  cases h with
  | base hfixed hbase => exact .base (hfixed.same hsame) (hsame.isBase_eq ▸ hbase)
  | power hfixed hbase x =>
    cases hsame.node with
    | binary _ hb _ => exact .power (hfixed.same hb) (hb.isBase_eq ▸ hbase) _

end Simple

end Expr

namespace Simplify

open SymbolicAlgebra.Expr (Simple NearlySimple Resolved)

/-! ### Steps -/

variable {n a : Nat} {depth : Nat}

section Congruent

variable [CongruentScalar α]

theorem stepParts_simple {b x r : Expr α} (hfixed : b.Fixed) (hbase : b.isBase = true)
    (h : stepParts (solve depth) .power b x = some r) : Simple r := by
  simp only [stepParts, Option.bind_eq_bind, Option.bind_eq_some_iff, Option.some.injEq] at h
  obtain ⟨b', hb, x', -, rfl⟩ := h
  exact (Simple.power hfixed hbase x').same
    (Same.binary .power (hfixed.step hb).symm (.refl x'))

theorem constantPower?_simple {b r : Expr α} {x : α} (hfixed : b.Fixed) (hbase : b.isBase = true)
    (h : constantPower? b x = some r) : Simple r := by
  unfold constantPower? at h
  split at h
  · rw [← Option.some.inj h]
    exact .const _
  · split_ifs at h
    · rw [← Option.some.inj h]
      exact .const _
    · rw [← Option.some.inj h]
      exact .base hfixed hbase

/-- A simple factor is replaced by a simple one, or by a fixed expression that is less bulky. -/
def StaysSimple (n : Nat) (e r : Expr α) : Prop :=
  Simple r ∨ (r.Fixed ∧ r.size < n ∧ r.bulk < e.bulk)

omit [CongruentScalar α] in
theorem StaysSimple.resolved {e r : Expr α} (h : StaysSimple n e r) : Resolved n r := by
  rcases h with hsimple | ⟨hfixed, hsize, -⟩
  · exact .inl hsimple
  · exact .inr ⟨hfixed, hsize⟩

/-- **A step at a simple factor.** -/
theorem step_simple (hn : TameBelow α n) {e r : Expr α} (he : Within n a e) (hsimple : Simple e)
    (h : solve depth (.step e) = some r) : StaysSimple n e r := by
  cases hsimple with
  | base hfixed hbase =>
    have hsame := hfixed.step h
    exact .inl ((Simple.base hfixed hbase).same hsame.symm)
  | @power b hfixed hbase x =>
    cases depth with
    | zero => cases h
    | succ depth =>
      change stepPower (solve depth) b x = some r at h
      unfold stepPower at h
      split at h
      · cases hbase
      · cases hbase
      · cases hbase
      · split at h
        · split_ifs at h
          · rw [← Option.some.inj h]
            obtain ⟨hfixed, hlt, hsize⟩ := log_arg_fixed he
            exact .inr ⟨hfixed, hlt.trans hsize, (log_arg_shrinks hn he).2⟩
          · exact .inl (stepParts_simple hfixed hbase h)
        · split at h
          · next hconst =>
            rw [← Option.some.inj h]
            exact .inl (constantPower?_simple hfixed hbase hconst)
          · exact .inl (stepParts_simple hfixed hbase h)
        · exact .inl (stepParts_simple hfixed hbase h)

theorem steps_simple (hn : TameBelow α n) {es rs : List (Expr α)} (hes : ∀ e ∈ es, Within n a e)
    (hsimple : ∀ e ∈ es, Simple e) (h : (solve depth).steps es = some rs) :
    List.Forall₂ (StaysSimple n) es rs :=
  ((List.forall₂_and_left es rs).mpr
    ⟨fun e he => And.intro (hes e he) (hsimple e he), Solver.steps_forall₂ h⟩).imp
      fun _ _ h => step_simple hn h.1.1 h.1.2 h.2

/-- A step at a resolved expression gives a resolved one. -/
theorem step_resolved (hn : TameBelow α n) {e r : Expr α} (he : Within n a e)
    (hresolved : Resolved n e) (h : solve depth (.step e) = some r) : Resolved n r := by
  rcases hresolved with hsimple | ⟨hfixed, hsize⟩
  · exact (step_simple hn he hsimple h).resolved
  · have hsame := hfixed.step h
    exact .inr ⟨hfixed.same hsame.symm, hsame.size_eq ▸ hsize⟩

theorem steps_resolved (hn : TameBelow α n) {es rs : List (Expr α)} (hes : ∀ e ∈ es, Within n a e)
    (hresolved : ∀ e ∈ es, Resolved n e) (h : (solve depth).steps es = some rs) :
    ∀ r ∈ rs, Resolved n r := by
  intro r hr
  obtain ⟨e, he, hstep⟩ := (Solver.steps_forall₂ h).exists_left r hr
  exact step_resolved hn (hes e he) (hresolved e he) hstep

theorem asPowers_simple (hn : TameBelow α n) : ∀ es ps : List (Expr α), (∀ e ∈ es, Within n a e) →
    (∀ e ∈ es, NearlySimple e) → asPowers (solve depth) es = some ps →
      List.Forall₂ (StaysSimple n) es ps := by
  refine asPowers.induct _ ?nil ?power ?other
  case nil =>
    intro ps _ _ h
    rw [asPowers, Option.some.injEq] at h
    rw [← h]
    exact .nil
  case power =>
    intro b x es ih ps hes hsimple h
    simp only [asPowers, Option.bind_eq_bind, Option.bind_eq_some_iff, Option.some.injEq] at h
    obtain ⟨p, hp, rest, hrest, rfl⟩ := h
    obtain ⟨he, hes⟩ := List.forall_mem_cons.mp hes
    obtain ⟨hfirst, hsimple⟩ := List.forall_mem_cons.mp hsimple
    refine .cons ?_ (ih rest hes hsimple hrest)
    cases hfirst with
    | simple hfirst => exact step_simple hn he hfirst hp
    | power hfixed hbase y x =>
      cases depth with
      | zero => cases hp
      | succ depth =>
        change stepPower (solve depth) (.power _ y) x = some p at hp
        simp only [stepPower, Option.bind_eq_bind, Option.bind_eq_some_iff, Option.some.injEq] at hp
        obtain ⟨z, -, rfl⟩ := hp
        exact .inl (.power hfixed hbase z)
  case other =>
    intro e es he ih ps hes hsimple h
    rw [asPowers.eq_3 _ e es he] at h
    simp only [Option.bind_eq_bind, Option.bind_eq_some_iff, Option.some.injEq] at h
    obtain ⟨b, hb, rest, hrest, rfl⟩ := h
    obtain ⟨-, hes⟩ := List.forall_mem_cons.mp hes
    obtain ⟨hfirst, hsimple⟩ := List.forall_mem_cons.mp hsimple
    refine .cons (.inl ?_) (ih rest hes hsimple hrest)
    cases hfirst with
    | simple hfirst =>
      obtain ⟨hfixed, hbase⟩ := hfirst.of_not_power he
      have hsame := (hfixed.step hb).symm
      exact .power (hfixed.same hsame) (hsame.isBase_eq ▸ hbase) _
    | power _ _ _ _ => exact absurd rfl (he _ _)

end Congruent

/-! ### Lists without a loss -/

/-- Shrinking that loses nothing loses nothing anywhere. -/
theorem bulk_eq_of_prod_le {es rs : List (Expr α)} (h : List.Forall₂ (Shrinks n a) es rs)
    (hprod : (es.map bulk).prod ≤ (rs.map bulk).prod) :
    List.Forall₂ (fun e r => r.bulk = e.bulk) es rs := by
  induction h with
  | nil => exact .nil
  | @cons e r es rs hfirst hrest ih =>
    rw [List.map_cons, List.prod_cons, List.map_cons, List.prod_cons] at hprod
    have hle := Shrinks.prod_le hrest
    have hpos := Expr.prod_bulk_pos rs
    have hbulk : r.bulk = e.bulk := by
      refine Nat.le_antisymm hfirst.2 (Nat.le_of_mul_le_mul_right ?_ hpos)
      exact (Nat.mul_le_mul_left _ hle).trans hprod
    refine .cons hbulk (ih (Nat.le_of_mul_le_mul_left ?_ (Expr.bulk_pos e)))
    rwa [hbulk] at hprod

theorem prod_bulk_of_bulk_eq {es rs : List (Expr α)}
    (h : List.Forall₂ (fun e r => r.bulk = e.bulk) es rs) :
    (rs.map bulk).prod = (es.map bulk).prod := by
  induction h with
  | nil => rfl
  | cons heq _ ih => rw [List.map_cons, List.prod_cons, List.map_cons, List.prod_cons, heq, ih]

theorem all_simple {es rs : List (Expr α)} (h : List.Forall₂ (StaysSimple n) es rs)
    (hbulk : List.Forall₂ (fun e r => r.bulk = e.bulk) es rs) : ∀ r ∈ rs, Simple r := by
  induction h with
  | nil => simp
  | cons hfirst _ ih =>
    obtain ⟨heq, hrest⟩ := List.forall₂_cons.mp hbulk
    exact List.forall_mem_cons.mpr ⟨hfirst.resolve_right fun h => by omega, ih hrest⟩

/-! ### Collecting -/

namespace LikeBases

/-- The bases of groups are bases of the powers in them. -/
theorem base_collect {P : Expr α → Prop} {ps : List (Expr α × Expr α)} (h : ∀ p ∈ ps, P p.1) :
    ∀ g ∈ collect ps, P g.base := by
  refine List.foldlRecOn (motive := fun gs : List (LikeBases α) => ∀ g ∈ gs, P g.base) ps _
    (by simp) fun gs ih p hp => ?_
  induction gs with
  | nil => exact List.forall_mem_singleton.mpr (h p hp)
  | cons g gs ihgs =>
    obtain ⟨hg, hgs⟩ := List.forall_mem_cons.mp ih
    unfold add
    split_ifs
    · exact List.forall_mem_cons.mpr ⟨hg, hgs⟩
    · exact List.forall_mem_cons.mpr ⟨hg, ihgs hgs⟩

omit [Scalar α] in
theorem toPowers_eq {solve : Solver α} : ∀ {gs : List (LikeBases α)} {fs : List (Expr α)},
    toPowers solve gs = some fs →
      List.Forall₂ (fun g f => ∃ s, solve (.sum g.exponents) = some s ∧ f = .power g.base s) gs fs
  | [], fs, h => by
    rw [toPowers, Option.some.injEq] at h
    rw [← h]
    exact .nil
  | g :: gs, fs, h => by
    simp only [toPowers, Option.bind_eq_bind, Option.bind_eq_some_iff, Option.some.injEq] at h
    obtain ⟨s, hs, rest, hrest, rfl⟩ := h
    exact .cons ⟨s, hs, rfl⟩ (toPowers_eq hrest)

end LikeBases

section Rule

variable [StandardScalar α]

namespace Collects

variable {fs flat pieces powers stepped : List (Expr α)}

section Solve

variable {solve : Solver α} (h : Collects n a solve fs flat pieces powers stepped)
include h

/-- If nothing is lost, then not where the factors are turned into powers. -/
theorem pieces_bulk (hprod : (fs.map bulk).prod ≤ (stepped.map bulk).prod) :
    List.Forall₂ (fun e p => p.bulk = e.bulk) (nonConstants flat) pieces := by
  refine bulk_eq_of_prod_le h.pieces_shrink
    (Nat.le_of_mul_le_mul_left ?_ (Expr.prod_bulk_pos (flat.filter Expr.isConst)))
  calc _ = (flat.map bulk).prod := (prod_bulk_filter Expr.isConst flat).symm
    _ ≤ (fs.map bulk).prod := h.flat_le
    _ ≤ (stepped.map bulk).prod := hprod
    _ ≤ _ := Shrinks.prod_le h.stepped_shrink
    _ ≤ _ := h.grouped_le_pieces

/-- If nothing is lost, then not where the collected powers are stepped. -/
theorem stepped_bulk (hprod : (fs.map bulk).prod ≤ (stepped.map bulk).prod) :
    List.Forall₂ (fun e s => s.bulk = e.bulk) (coefficient flat ++ powers ++
      pieces.filter fun e => (power? e).isNone) stepped :=
  bulk_eq_of_prod_le h.stepped_shrink (h.grouped_le.trans (h.flat_le.trans hprod))

/-- What is stepped has the properties of the pieces, if constants and powers of bases have them. -/
theorem grouped_of_pieces {P : Expr α → Prop} (hsimple : ∀ {e : Expr α}, Simple e → P e)
    (hpower : ∀ {b x : Expr α}, P (.power b x) → b.Fixed ∧ b.isBase = true)
    (hpieces : ∀ p ∈ pieces, P p) : ∀ e ∈ coefficient flat ++ powers ++
      pieces.filter fun e => (power? e).isNone, P e := by
  have hbases : ∀ g ∈ LikeBases.collect (pieces.filterMap power?),
      g.base.Fixed ∧ g.base.isBase = true := by
    refine LikeBases.base_collect (P := fun b => b.Fixed ∧ b.isBase = true) fun p hp => ?_
    obtain ⟨e, he, heq⟩ := List.mem_filterMap.mp hp
    exact hpower (power?_eq_some heq ▸ hpieces e he)
  refine List.forall_mem_append.mpr ⟨List.forall_mem_append.mpr ⟨?_, ?_⟩,
    fun e he => hpieces e (List.mem_of_mem_filter he)⟩
  · rcases length_coefficient_le flat with hnil | ⟨c, hc⟩
    · simp [hnil]
    · simpa [hc] using hsimple (.const c)
  · intro p hp
    obtain ⟨g, hg, s, -, rfl⟩ := (LikeBases.toPowers_eq h.combined).exists_left p hp
    exact hsimple (.power (hbases g hg).1 (hbases g hg).2 s)

end Solve

/-- **Simple factors come to resolved ones.** -/
theorem stepped_resolved (hn : TameBelow α n)
    (h : Collects n a (solve depth) fs flat pieces powers stepped)
    (hflat : ∀ f ∈ nonConstants flat, NearlySimple f) : ∀ s ∈ stepped, Resolved n s := by
  have hpieces : ∀ p ∈ pieces, Resolved n p := fun p hp => by
    obtain ⟨f, -, hstays⟩ := (asPowers_simple hn _ pieces
      (fun f hf => h.flat_within f (List.mem_of_mem_filter hf)) hflat h.asPowers).exists_left p hp
    exact hstays.resolved
  refine steps_resolved hn h.grouped_within (h.grouped_of_pieces .inl ?_ hpieces) h.steps
  rintro b x (hsimple | ⟨hfixed, hsize⟩)
  · exact hsimple.of_power
  · exact ⟨hfixed.power_base, hn.base hfixed hsize⟩

/-- **Simple factors come to simple factors** if nothing is lost. -/
theorem stepped_simple (hn : TameBelow α n)
    (h : Collects n a (solve depth) fs flat pieces powers stepped)
    (hflat : ∀ f ∈ nonConstants flat, NearlySimple f)
    (hprod : (fs.map bulk).prod ≤ (stepped.map bulk).prod) : ∀ s ∈ stepped, Simple s := by
  have hpieces : ∀ p ∈ pieces, Simple p :=
    all_simple (asPowers_simple hn _ pieces (fun f hf => h.flat_within f (List.mem_of_mem_filter hf))
      hflat h.asPowers) (h.pieces_bulk hprod)
  have hgrouped := h.grouped_of_pieces id Simple.of_power hpieces
  exact all_simple (steps_simple hn h.grouped_within hgrouped h.steps) (h.stepped_bulk hprod)

end Collects

end Rule

end Simplify

end SymbolicAlgebra
