import SymbolicAlgebra.Proofs.Form.Numbers
import SymbolicAlgebra.Proofs.Real.Power
import SymbolicAlgebra.Simplify.Solve

/-! # Single nodes of real numbers

The rules of the other functions keep values in the real numbers, and with them one step at any node
(`stepNode_real`). The minimum and the maximum of some numbers do not depend on their order, and
some of the numbers may be replaced by their own minimum or maximum. -/

namespace SymbolicAlgebra

variable {b : Bindings EReal}

/-! ### Minima and maxima -/

/-- What is at least as far out as another number, for a minimum or a maximum. -/
def Nary.Outer : Nary → ℝ → ℝ → Prop
  | .max, x, y => y ≤ x
  | _, x, y => x ≤ y

theorem Nary.real?_eq_some_iff {f : Nary} (hf : f = .min ∨ f = .max) {xs : List ℝ} {m : ℝ} :
    f.real? xs = some m ↔ m ∈ xs ∧ ∀ x ∈ xs, f.Outer m x := by
  rcases hf with rfl | rfl
  · exact List.min?_eq_some_iff
  · exact List.max?_eq_some_iff

theorem Nary.Outer.antisymm {f : Nary} {x y : ℝ} (h : f.Outer x y) (h' : f.Outer y x) : x = y := by
  cases f with
  | max => exact le_antisymm h' h
  | _ => exact le_antisymm h h'

/-- **The order of numbers does not matter** for their minimum and maximum. -/
theorem Nary.real?_perm {f : Nary} (hf : f = .min ∨ f = .max) {xs ys : List ℝ} {m : ℝ}
    (h : f.real? xs = some m) (p : ys.Perm xs) : f.real? ys = some m := by
  rw [real?_eq_some_iff hf] at h ⊢
  exact ⟨p.mem_iff.mpr h.1, fun y hy => h.2 y (p.mem_iff.mp hy)⟩

theorem Nary.exists_real? {f : Nary} (hf : f = .min ∨ f = .max) {xs : List ℝ} (hxs : xs ≠ []) :
    ∃ m, f.real? xs = some m := by
  obtain ⟨x, xs, rfl⟩ := List.exists_cons_of_ne_nil hxs
  rcases hf with rfl | rfl
  · exact ⟨_, List.min?_cons'⟩
  · exact ⟨_, List.max?_cons'⟩

/-- **Some numbers may be replaced by their minimum or maximum.** -/
theorem Nary.real?_replace {f : Nary} (hf : f = .min ∨ f = .max) {xs cs : List ℝ} {c m : ℝ}
    (hc : f.real? cs = some c) (h : f.real? (xs ++ cs) = some m) :
    f.real? (xs ++ [c]) = some m := by
  rw [real?_eq_some_iff hf] at hc h ⊢
  obtain ⟨hcmem, hcall⟩ := hc
  obtain ⟨hmem, hall⟩ := h
  obtain ⟨hxs, hcs⟩ := List.forall_mem_append.mp hall
  have hmc : f.Outer m c := hcs c hcmem
  refine ⟨?_, List.forall_mem_append.mpr ⟨hxs, List.forall_mem_singleton.mpr hmc⟩⟩
  rcases List.mem_append.mp hmem with hmem | hmem
  · exact List.mem_append_left _ hmem
  · rw [hmc.antisymm (hcall m hmem)]
    exact List.mem_append_right _ (List.mem_singleton_self c)

namespace RealValue

/-- A node of arguments in any order. -/
theorem nary_perm {f : Nary} (hf : f = .min ∨ f = .max) {as cs : List (Expr EReal)} {xs : List ℝ}
    {m : ℝ} (has : List.Forall₂ (RealValue b) as xs) (hm : f.real? xs = some m)
    (p : cs.Perm as) : RealValue b (.nary f cs) m := by
  obtain ⟨ys, hys, hperm⟩ := forall₂_perm has p
  exact nary_iff.mpr ⟨ys, hys, Nary.real?_perm hf hm hperm⟩

end RealValue

/-! ### Steps -/

namespace Simplify

variable [RealScalar]

/-- **Folding the constants of a minimum or maximum keeps its value.** -/
theorem foldConstants_real {f : Nary} (hf : f = .min ∨ f = .max)
    {build : List (Expr EReal) → Expr EReal}
    (hbuild : ∀ es, ∃ fs : List (Expr EReal), fs.Perm es ∧ build es = .nary f fs)
    {args : List (Expr EReal)} {xs : List ℝ} {m : ℝ} (hargs : List.Forall₂ (RealValue b) args xs)
    (hm : f.real? xs = some m) : RealValue b (foldConstants f build args) m := by
  have hbuilt {es : List (Expr EReal)} {ys : List ℝ} (hes : List.Forall₂ (RealValue b) es ys)
      (hm : f.real? ys = some m) : RealValue b (build es) m := by
    obtain ⟨fs, hperm, heq⟩ := hbuild es
    exact heq ▸ RealValue.nary_perm hf hes hm hperm
  obtain ⟨rs, cs, hrs, hcs, hperm⟩ := Expr.forall₂_parted hargs
  have hm := Nary.real?_perm hf hm hperm
  have hnumbers : args.filterMap Expr.constant? = cs.map Real.toEReal := by
    rw [← Expr.numbers_filter]
    exact Expr.numbers_eq_map RealValue.const_iff.mp hcs fun e he => (List.mem_filter.mp he).2
  have hnil : cs = [] ↔ ∀ a ∈ args, a.isConst = false := by
    rw [← Expr.numbers_eq_nil_iff, hnumbers, List.map_eq_nil_iff]
  obtain ⟨hnone, hfold⟩ | ⟨⟨a, ha, hconst⟩, hfolds⟩ := foldConstants_cases f build args
  · rw [hnil.mpr hnone, List.append_nil] at hm
    exact hfold ▸ hbuilt hrs hm
  have hne : cs ≠ [] := fun h => by simp [hnil.mp h a ha] at hconst
  obtain ⟨c, hc⟩ := Nary.exists_real? hf hne
  have hreplaced := Nary.real?_replace hf hc hm
  rw [hnumbers, Nary.apply_real hc] at hfolds
  obtain ⟨hall, hfold⟩ | ⟨-, hfold⟩ | ⟨-, hfold⟩ := hfolds
  · have hrest : args.filter (fun e => !e.isConst) = [] := by
      simpa [List.filter_eq_nil_iff] using hall
    rw [hrest, List.forall₂_nil_left_iff] at hrs
    rw [hrs, List.nil_append, Nary.real?_eq_some_iff hf] at hreplaced
    rw [hfold, List.mem_singleton.mp hreplaced.1]
    exact .const c
  · exact hfold ▸ hbuilt (List.rel_append hrs (.cons (.const c) .nil)) hreplaced
  · exact hfold ▸ hbuilt (List.rel_append hrs hcs) hm

/-! ### Functions of one argument -/

variable {solve : Solver EReal} (hs : KeepsReal b solve)

/-- A function of a constant, folded. -/
theorem finite?_real {x : ℝ} {r : Expr EReal} (h : finite? (x : EReal) = some r) :
    RealValue b r x := by
  unfold finite? at h
  split_ifs at h
  rw [← Option.some.inj h]
  exact .const x

omit [RealScalar] in
theorem constant?_real {a : Expr EReal} {c : EReal} {x : ℝ} (ha : RealValue b a x)
    (hc : a.constant? = some c) : c = x := by
  cases a with
  | const k => exact (Option.some.inj hc).symm.trans (RealValue.const_iff.mp ha)
  | _ => cases hc

include hs

omit [RealScalar] in
theorem stepArg_real {f : Unary} {a r : Expr EReal} {z : ℝ} (hz : RealValue b (.unary f a) z)
    (h : stepArg solve f a = some r) : RealValue b r z := by
  obtain ⟨x, hx, hvalue⟩ := RealValue.unary_iff.mp hz
  simp only [stepArg, Option.bind_eq_bind, Option.bind_eq_some_iff, Option.some.injEq] at h
  obtain ⟨a', ha', rfl⟩ := h
  exact RealValue.unary_iff.mpr ⟨x, hs.step hx ha', hvalue⟩

theorem stepFinite_real {f : Unary} {a r : Expr EReal} {z : ℝ} (hz : RealValue b (.unary f a) z)
    (h : stepFinite solve f a = some r) : RealValue b r z := by
  obtain ⟨x, hx, hvalue⟩ := RealValue.unary_iff.mp hz
  unfold stepFinite at h
  split at h
  · next e he =>
    obtain ⟨c, hc, he⟩ := Option.bind_eq_some_iff.mp he
    rw [constant?_real hx hc, Unary.apply_real hvalue] at he
    rw [← Option.some.inj h]
    exact finite?_real he
  · exact stepArg_real hs hz h

omit hs [RealScalar] in
/-- **A function undoes its inverse function.** -/
theorem cancels?_real {kind inner : Trig} (h : kind.cancels? = some inner) {x y z : ℝ}
    (hy : inner.real? x = some y) (hz : kind.real? y = some z) : z = x := by
  cases kind <;> simp only [Trig.cancels?, Option.some.injEq, reduceCtorEq] at h
  case sin =>
    subst h
    simp only [Trig.real?, Option.ite_none_right_eq_some, Option.some.injEq] at hy hz
    rw [← hz, ← hy.2, Real.sin_arcsin hy.1.1 hy.1.2]
  case cos =>
    subst h
    simp only [Trig.real?, Option.ite_none_right_eq_some, Option.some.injEq] at hy hz
    rw [← hz, ← hy.2, Real.cos_arccos hy.1.1 hy.1.2]
  case tan =>
    subst h
    simp only [Trig.real?, Option.ite_none_left_eq_some, Option.some.injEq] at hy hz
    rw [← hz.2, ← hy, Real.tan_arctan]

theorem stepTrig_real {kind : Trig} {a r : Expr EReal} {z : ℝ}
    (hz : RealValue b (.trig kind a) z) (h : stepTrig solve kind a = some r) :
    RealValue b r z := by
  obtain ⟨x, hx, hvalue⟩ := RealValue.unary_iff.mp hz
  unfold stepTrig at h
  split at h
  · next e he =>
    obtain ⟨c, hc, he⟩ := Option.bind_eq_some_iff.mp he
    rw [constant?_real hx hc, Trig.apply_real hvalue] at he
    simp only at he
    split_ifs at he
    rw [← Option.some.inj h, ← Option.some.inj he]
    exact .const z
  · split at h
    · next inner innerArg =>
      split_ifs at h with hcancels
      · obtain ⟨y, hy, hinner⟩ := RealValue.unary_iff.mp hx
        rw [cancels?_real hcancels hinner hvalue]
        exact hs.step hy h
      · exact stepArg_real hs hz h
    · exact stepArg_real hs hz h

/-! ### Any node -/

theorem stepMod_real {a c r : Expr EReal} {z : ℝ} (hz : RealValue b (.mod a c) z)
    (h : stepMod solve a c = some r) : RealValue b r z := by
  unfold stepMod at h
  split at h
  · next x y =>
    split at h
    · next e he =>
      obtain ⟨u, v, hu, hv, hvalue⟩ := (RealValue.binary_iff (by decide)).mp hz
      have hrem : Scalar.rem (u : EReal) v = z := Binary.apply_real hvalue
      rw [RealValue.const_iff.mp hu, RealValue.const_iff.mp hv, hrem] at he
      rw [← Option.some.inj h]
      exact finite?_real he
    · exact stepParts_real hs (by decide) hz h
  · exact stepParts_real hs (by decide) hz h

theorem steps_real {as rs : List (Expr EReal)} {xs : List ℝ}
    (has : List.Forall₂ (RealValue b) as xs) (h : solve.steps as = some rs) :
    List.Forall₂ (RealValue b) rs xs := hs.sound.steps has h

theorem stepMin_real {as : List (Expr EReal)} {r : Expr EReal} {z : ℝ}
    (hz : RealValue b (.min as) z) (h : stepMin solve as = some r) : RealValue b r z := by
  obtain ⟨xs, hxs, hvalue⟩ := RealValue.nary_iff.mp hz
  simp only [stepMin, Option.bind_eq_bind, Option.bind_eq_some_iff, Option.some.injEq] at h
  obtain ⟨args, hargs, rfl⟩ := h
  exact foldConstants_real (.inl rfl) (fun es => ⟨_, StableSort.sort_perm _ es, rfl⟩)
    (steps_real hs hxs hargs) hvalue

theorem stepMax_real {as : List (Expr EReal)} {r : Expr EReal} {z : ℝ}
    (hz : RealValue b (.max as) z) (h : stepMax solve as = some r) : RealValue b r z := by
  obtain ⟨xs, hxs, hvalue⟩ := RealValue.nary_iff.mp hz
  simp only [stepMax, Option.bind_eq_bind, Option.bind_eq_some_iff, Option.some.injEq] at h
  obtain ⟨args, hargs, rfl⟩ := h
  exact foldConstants_real (.inr rfl) (fun es => ⟨_, StableSort.sort_perm _ es, rfl⟩)
    (steps_real hs hxs hargs) hvalue

/-- **One step keeps the value of a node.** -/
theorem stepNode_real {e r : Expr EReal} {z : ℝ} (hz : RealValue b e z)
    (h : stepNode solve e = some r) : RealValue b r z := by
  have hV := reading_real b
  match e with
  | .const c => exact Option.some.inj h ▸ hz
  | .var c => exact Option.some.inj h ▸ hz
  | .unary (.bracket kind) a => exact stepFinite_real hs hz h
  | .unary (.trig kind) a => exact stepTrig_real hs hz h
  | .unary .sign a => exact stepFinite_real hs hz h
  | .binary .fraction a c =>
    obtain ⟨x, y, hx, hy, hne, rfl⟩ := RealValue.fraction_iff.mp hz
    exact stepFraction_reads hV hs.sound hx hy hne h
  | .binary .power a c => exact stepPower_real hs hz h
  | .binary .log a c => exact stepLog_real hs hz h
  | .binary .mod a c => exact stepMod_real hs hz h
  | .nary .sum ts =>
    simp only [stepNode, Option.bind_eq_bind, Option.bind_eq_some_iff] at h
    obtain ⟨us, hus, h⟩ := h
    exact hs.sum (hs.sound.steps_sum (hV.sum_iff.mp hz) hus) h
  | .nary .product fs =>
    simp only [stepNode, Option.bind_eq_bind, Option.bind_eq_some_iff] at h
    obtain ⟨gs, hgs, h⟩ := h
    exact hs.product (hs.sound.steps_product (hV.product_iff.mp hz) hgs) h
  | .nary .min as => exact stepMin_real hs hz h
  | .nary .max as => exact stepMax_real hs hz h

/-! ### Steady nodes -/

end Simplify

namespace Simplify

variable {α : Type} [Scalar α] {solve : Solver α}

theorem finite?_steady {x : α} {e : Expr α} (h : finite? x = some e) : e.isSteady = true := by
  unfold finite? at h
  split_ifs at h
  rw [← Option.some.inj h]
  rfl

theorem foldConstants_steady {f : Nary} {build : List (Expr α) → Expr α}
    (hbuild : ∀ es, (build es).isSteady = true) (args : List (Expr α)) :
    (foldConstants f build args).isSteady = true := by
  obtain ⟨-, hfold⟩ | ⟨-, ⟨-, hfold⟩ | ⟨-, hfold⟩ | ⟨-, hfold⟩⟩ := foldConstants_cases f build args
  · exact hfold ▸ hbuild _
  · exact hfold ▸ rfl
  · exact hfold ▸ hbuild _
  · exact hfold ▸ hbuild _

omit [Scalar α] in
theorem stepArg_steady {f : Unary} {a r : Expr α}
    (hf : ∀ a : Expr α, (Expr.unary f a).isSteady = true)
    (h : stepArg solve f a = some r) : r.isSteady = true := by
  simp only [stepArg, Option.bind_eq_bind, Option.bind_eq_some_iff, Option.some.injEq] at h
  obtain ⟨a', -, rfl⟩ := h
  exact hf a'

theorem stepFinite_steady {f : Unary} {a r : Expr α}
    (hf : ∀ a : Expr α, (Expr.unary f a).isSteady = true)
    (h : stepFinite solve f a = some r) : r.isSteady = true := by
  unfold stepFinite at h
  split at h
  · next e he =>
    obtain ⟨x, -, he⟩ := Option.bind_eq_some_iff.mp he
    exact Option.some.inj h ▸ finite?_steady he
  · exact stepArg_steady hf h

theorem stepTrig_steady {kind : Trig} {a r : Expr α} (hkind : kind.cancels?.isNone = true)
    (h : stepTrig solve kind a = some r) : r.isSteady = true := by
  have hsteady (a : Expr α) : (Expr.trig kind a).isSteady = true := hkind
  unfold stepTrig at h
  split at h
  · next e he =>
    obtain ⟨x, -, he⟩ := Option.bind_eq_some_iff.mp he
    simp only at he
    split_ifs at he
    rw [← Option.some.inj h, ← Option.some.inj he]
    rfl
  · split at h
    · split_ifs at h with hcancels
      · rw [hcancels] at hkind
        cases hkind
      · exact stepArg_steady hsteady h
    · exact stepArg_steady hsteady h

theorem stepMod_steady {a c r : Expr α} (h : stepMod solve a c = some r) : r.isSteady = true := by
  have hparts (h : stepParts solve .mod a c = some r) : r.isSteady = true := by
    simp only [stepParts, Option.bind_eq_bind, Option.bind_eq_some_iff, Option.some.injEq] at h
    obtain ⟨a', -, c', -, rfl⟩ := h
    rfl
  unfold stepMod at h
  split at h
  · split at h
    · next e he => exact Option.some.inj h ▸ finite?_steady he
    · exact hparts h
  · exact hparts h

/-- **A step takes steady nodes to steady nodes.** -/
theorem stepNode_steady {e r : Expr α} (he : e.isSteady = true)
    (h : stepNode solve e = some r) : r.isSteady = true := by
  match e with
  | .const c => exact Option.some.inj h ▸ he
  | .var c => exact Option.some.inj h ▸ he
  | .unary (.bracket kind) a => exact stepFinite_steady (fun _ => rfl) h
  | .unary (.trig kind) a => exact stepTrig_steady he h
  | .unary .sign a => exact stepFinite_steady (fun _ => rfl) h
  | .binary .mod a c => exact stepMod_steady h
  | .nary .min as =>
    simp only [stepNode, stepMin, Option.bind_eq_bind, Option.bind_eq_some_iff,
      Option.some.injEq] at h
    obtain ⟨args, -, rfl⟩ := h
    exact foldConstants_steady (fun _ => rfl) args
  | .nary .max as =>
    simp only [stepNode, stepMax, Option.bind_eq_bind, Option.bind_eq_some_iff,
      Option.some.injEq] at h
    obtain ⟨args, -, rfl⟩ := h
    exact foldConstants_steady (fun _ => rfl) args

end Simplify

end SymbolicAlgebra
