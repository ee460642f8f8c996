import SymbolicAlgebra.Derivative
import SymbolicAlgebra.Proofs.Expr.Evaluate
import SymbolicAlgebra.Proofs.Form.Simplify

/-! # Derivatives keep what lasts

Every rule puts the derivatives of the arguments and the arguments themselves together by the
constructors that a lasting property respects, so the derivative of an expression with the property
has it too (`Lasting.derivative`). -/

namespace SymbolicAlgebra

open SymbolicAlgebra.Expr (buildSum buildProduct)

variable {α : Type} [Scalar α] {P : Expr α → Prop}

section Kept

variable [OrderedScalar α] (hP : Lasting P)
include hP

namespace Derivative

/-! ### Rules -/

omit [Scalar α] [OrderedScalar α] hP in
theorem variations_kept : ∀ {fs ds : List (Expr α)}, (∀ f ∈ fs, P f) → (∀ d ∈ ds, P d) →
    ∀ gs ∈ variations fs ds, ∀ g ∈ gs, P g
  | [], _, _, _ => by simp [variations]
  | _ :: _, [], _, _ => by simp [variations]
  | f :: fs, d :: ds, hfs, hds => by
    obtain ⟨hf, hrest⟩ := List.forall_mem_cons.mp hfs
    obtain ⟨hd, hds⟩ := List.forall_mem_cons.mp hds
    rw [variations]
    refine List.forall_mem_cons.mpr ⟨List.forall_mem_cons.mpr ⟨hd, hrest⟩, ?_⟩
    exact List.forall_mem_map.mpr fun gs hgs =>
      List.forall_mem_cons.mpr ⟨hf, variations_kept hrest hds gs hgs⟩

theorem ofProduct_kept {fs ds : List (Expr α)} (hfs : ∀ f ∈ fs, P f) (hds : ∀ d ∈ ds, P d) :
    P (ofProduct fs ds) := by
  unfold ofProduct
  split
  · next d =>
    refine hP.buildProduct ?_
    simpa using ⟨hP.const _, hds d (by simp)⟩
  · exact hP.buildSum (List.forall_mem_map.mpr fun gs hgs =>
      hP.buildProduct (variations_kept hfs hds gs hgs))

section Rules
variable {a b da db : Expr α} (ha : P a) (hb : P b) (hda : P da) (hdb : P db)
include ha hda

theorem ofConstantPower_kept (k : α) : P (ofConstantPower a da k) :=
  hP.buildProduct (by simpa [hP.const, hP.power_iff] using ⟨hda, ha⟩)

theorem ofLn_kept : P (ofLn a da) :=
  hP.buildProduct (by simpa using ⟨hda, hP.recip ha⟩)

theorem ofAnyLn_kept : P (ofAnyLn a da) := by
  unfold ofAnyLn
  split_ifs
  · exact hP.const _
  · exact ofLn_kept hP ha hda

theorem ofAbs_kept : P (ofAbs a da) :=
  hP.buildProduct (by simpa [hP.fraction_iff, hP.abs_iff] using ⟨ha, hda⟩)

theorem ofTrig_kept (kind : Trig) : P (ofTrig kind a da) := by
  have hsquare (s : α) : P (onePlusSquare s a) := by
    have hproduct : P (buildProduct [.const s, .power a (.const Scalar.two)]) :=
      hP.buildProduct (by simpa [hP.const, hP.power_iff] using ha)
    exact hP.buildSum (by simpa [hP.const] using hproduct)
  unfold ofTrig
  cases kind <;> refine hP.buildProduct ?_ <;>
    simp [hP.const, hP.power_iff, hP.trig_iff, Expr.recip, hsquare, ha, hda]

include hb

theorem ofConstantLog_kept : P (ofConstantLog b a da) := by
  have hproduct : P (buildProduct [a, b.ln]) := hP.buildProduct (by simpa using ⟨ha, hP.ln hb⟩)
  exact hP.buildProduct (by simpa using ⟨hda, hP.recip hproduct⟩)

omit ha hda
include ha hdb

theorem ofExponential_kept : P (ofExponential a b db) := by
  have hpower : P (.power a b) := hP.power_iff.mpr ⟨ha, hb⟩
  unfold ofExponential
  split_ifs
  · exact hP.buildProduct (by simpa using ⟨hpower, hdb⟩)
  · exact hP.buildProduct (by simpa using ⟨hpower, hdb, hP.ln ha⟩)

include hda

theorem ofPower_kept : P (ofPower a da b db) := by
  have hpower : P (.power a b) := hP.power_iff.mpr ⟨ha, hb⟩
  have hfirst : P (buildProduct [db, a.ln]) := hP.buildProduct (by simpa using ⟨hdb, hP.ln ha⟩)
  have hsecond : P (buildProduct [b, da, a.recip]) :=
    hP.buildProduct (by simpa using ⟨hb, hda, hP.recip ha⟩)
  have hsum : P (buildSum [buildProduct [db, a.ln], buildProduct [b, da, a.recip]]) :=
    hP.buildSum (by simpa using ⟨hfirst, hsecond⟩)
  exact hP.buildProduct (by simpa using ⟨hpower, hsum⟩)

theorem ofFraction_kept : P (ofFraction a da b db) := by
  have hfirst : P (buildProduct [da, b]) := hP.buildProduct (by simpa using ⟨hda, hb⟩)
  have hsecond : P (buildProduct [.const Scalar.negOne, a, db]) :=
    hP.buildProduct (by simpa [hP.const] using ⟨ha, hdb⟩)
  refine hP.fraction_iff.mpr ⟨hP.buildSum ?_, hP.power_iff.mpr ⟨hb, hP.const _⟩⟩
  simpa using ⟨hfirst, hsecond⟩

theorem ofLog_kept : P (ofLog a da b db) :=
  ofFraction_kept hP (hP.ln hb) (hP.ln ha) (ofAnyLn_kept hP hb hdb) (ofLn_kept hP ha hda)

end Rules

end Derivative

/-! ### Nodes -/

open SymbolicAlgebra.Derivative

namespace Lasting

section Nodes

variable {v : Char} {a b d : Expr α} (iha : P a → ∀ da, a.derivative v = .ok da → P da)
  (ihb : P b → ∀ db, b.derivative v = .ok db → P db)

include iha in
theorem unary_derivative {f : Unary} (he : P (.unary f a))
    (h : (Expr.unary f a).derivative v = .ok d) : P d := by
  match f with
  | .bracket .floor =>
    rw [Expr.derivative, Except.ok.injEq] at h
    exact h ▸ hP.const _
  | .bracket .ceil =>
    rw [Expr.derivative, Except.ok.injEq] at h
    exact h ▸ hP.const _
  | .bracket .abs =>
    have ha := hP.abs_iff.mp he
    rw [Expr.derivative] at h
    obtain ⟨da, hda, h⟩ := bind_eq_ok_iff.mp h
    rw [← Except.ok.inj h]
    exact ofAbs_kept hP ha (iha ha da hda)
  | .trig kind =>
    have ha := hP.trig_iff.mp he
    rw [Expr.derivative] at h
    obtain ⟨da, hda, h⟩ := bind_eq_ok_iff.mp h
    rw [← Except.ok.inj h]
    exact ofTrig_kept hP ha (iha ha da hda) kind
  | .sign =>
    rw [Expr.derivative] at h
    cases h

include iha ihb

theorem fraction_derivative (he : P (.fraction a b))
    (h : (Expr.fraction a b).derivative v = .ok d) : P d := by
  obtain ⟨ha, hb⟩ := hP.fraction_iff.mp he
  rw [Expr.derivative] at h
  obtain ⟨da, hda, h⟩ := bind_eq_ok_iff.mp h
  obtain ⟨db, hdb, h⟩ := bind_eq_ok_iff.mp h
  rw [← Except.ok.inj h]
  exact ofFraction_kept hP ha hb (iha ha da hda) (ihb hb db hdb)

theorem power_derivative (he : P (.power a b)) (h : (Expr.power a b).derivative v = .ok d) :
    P d := by
  obtain ⟨ha, hb⟩ := hP.power_iff.mp he
  rw [Expr.derivative] at h
  split at h
  · rw [← Except.ok.inj h]
    exact hP.const _
  · obtain ⟨da, hda, h⟩ := bind_eq_ok_iff.mp h
    rw [← Except.ok.inj h]
    exact ofConstantPower_kept hP ha (iha ha da hda) _
  · obtain ⟨db, hdb, h⟩ := bind_eq_ok_iff.mp h
    rw [← Except.ok.inj h]
    exact ofExponential_kept hP ha hb (ihb hb db hdb)
  · obtain ⟨db, hdb, h⟩ := bind_eq_ok_iff.mp h
    obtain ⟨da, hda, h⟩ := bind_eq_ok_iff.mp h
    rw [← Except.ok.inj h]
    exact ofPower_kept hP ha hb (iha ha da hda) (ihb hb db hdb)

theorem log_derivative (he : P (.log a b)) (h : (Expr.log a b).derivative v = .ok d) : P d := by
  obtain ⟨ha, hb⟩ := hP.log_iff.mp he
  rw [Expr.derivative] at h
  split_ifs at h
  · rw [← Except.ok.inj h]
    exact hP.const _
  · obtain ⟨db, hdb, h⟩ := bind_eq_ok_iff.mp h
    rw [← Except.ok.inj h]
    exact ofLn_kept hP hb (ihb hb db hdb)
  · obtain ⟨db, hdb, h⟩ := bind_eq_ok_iff.mp h
    rw [← Except.ok.inj h]
    exact ofConstantLog_kept hP hb ha (ihb hb db hdb)
  · obtain ⟨db, hdb, h⟩ := bind_eq_ok_iff.mp h
    obtain ⟨da, hda, h⟩ := bind_eq_ok_iff.mp h
    rw [← Except.ok.inj h]
    exact ofLog_kept hP ha hb (iha ha da hda) (ihb hb db hdb)

theorem binary_derivative {f : Binary} (he : P (.binary f a b))
    (h : (Expr.binary f a b).derivative v = .ok d) : P d := by
  match f with
  | .fraction => exact hP.fraction_derivative iha ihb he h
  | .power => exact hP.power_derivative iha ihb he h
  | .log => exact hP.log_derivative iha ihb he h
  | .mod =>
    rw [Expr.derivative] at h
    cases h

omit iha ihb in
theorem nary_derivative {f : Nary} {as : List (Expr α)}
    (ih : (∀ a ∈ as, P a) → ∀ das, Expr.derivativeList v as = .ok das → ∀ da ∈ das, P da)
    (he : P (.nary f as)) (h : (Expr.nary f as).derivative v = .ok d) : P d := by
  match f with
  | .sum =>
    rw [Expr.derivative] at h
    obtain ⟨das, hdas, h⟩ := bind_eq_ok_iff.mp h
    rw [← Except.ok.inj h]
    exact hP.buildSum (ih (hP.args he) das hdas)
  | .product =>
    rw [Expr.derivative] at h
    obtain ⟨das, hdas, h⟩ := bind_eq_ok_iff.mp h
    rw [← Except.ok.inj h]
    exact ofProduct_kept hP (hP.args he) (ih (hP.args he) das hdas)
  | .min =>
    rw [Expr.derivative] at h
    cases h
  | .max =>
    rw [Expr.derivative] at h
    cases h

end Nodes

end Lasting

end Kept

/-! ### Whole expressions -/

namespace Lasting

mutual

/-- **Derivatives keep what lasts.** -/
theorem derivative [OrderedScalar α] (hP : Lasting P) {v : Char} :
    ∀ {e d : Expr α}, P e → e.derivative v = .ok d → P d
  | .const x, d, _, h => by
    rw [Expr.derivative, Except.ok.injEq] at h
    exact h ▸ hP.const _
  | .var c, d, _, h => by
    rw [Expr.derivative, Except.ok.injEq] at h
    exact h ▸ hP.const _
  | .unary f a, d, he, h => hP.unary_derivative (fun ha _ hda => derivative hP ha hda) he h
  | .binary f a b, d, he, h =>
    hP.binary_derivative (fun ha _ hda => derivative hP ha hda)
      (fun hb _ hdb => derivative hP hb hdb) he h
  | .nary f as, d, he, h =>
    hP.nary_derivative (fun has _ hdas => derivativeList hP has hdas) he h

theorem derivativeList [OrderedScalar α] (hP : Lasting P) {v : Char} :
    ∀ {es ds : List (Expr α)}, (∀ e ∈ es, P e) → Expr.derivativeList v es = .ok ds → ∀ d ∈ ds, P d
  | [], ds, _, h => by
    rw [Expr.derivativeList, Except.ok.injEq] at h
    simp [← h]
  | a :: as, ds, has, h => by
    obtain ⟨ha, has⟩ := List.forall_mem_cons.mp has
    rw [Expr.derivativeList] at h
    obtain ⟨da, hda, h⟩ := bind_eq_ok_iff.mp h
    obtain ⟨das, hdas, h⟩ := bind_eq_ok_iff.mp h
    rw [← Except.ok.inj h]
    exact List.forall_mem_cons.mpr ⟨derivative hP ha hda, derivativeList hP has hdas⟩

end

end Lasting

end SymbolicAlgebra
