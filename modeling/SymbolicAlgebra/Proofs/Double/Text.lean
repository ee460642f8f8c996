import SymbolicAlgebra.Proofs.Double.Parts
import SymbolicAlgebra.Proofs.Plain.ReadBack

/-! # The text of doubles

The text of a finite double is a decimal with a minus in front if its sign is negative, and it
depends on the sign in no other way. So doubles and their texts have all that plain text needs
(`LawfulNumeral`). -/

namespace SymbolicAlgebra.Double

open Float.Model (UnpackedFloat)
open Plain (IsDecimal)

/-! ### Decimals -/

theorem isDigit_of_mem_digits {n : Nat} {c : Char} (h : c ∈ Nat.toDigits 10 n) :
    c.isDigit = true :=
  Nat.isDigit_of_mem_toDigits (by decide) (by decide) h

theorem isDigit_of_mem_zeros {n : Nat} {c : Char} (h : c ∈ List.replicate n '0') :
    c.isDigit = true := by
  rw [List.eq_of_mem_replicate h]
  rfl

/-- **The positional text of a decimal** has digits only, apart from a point. -/
theorem isDecimal_text (d : Decimal) : IsDecimal d.text.toList := by
  rw [Decimal.text, String.toList_ofList]
  simp only
  split_ifs with hwhole hplaces
  · refine ⟨_, ?_, ?_, .inl rfl⟩
    · simp [Nat.toDigits_ne_nil]
    · intro c hc
      exact (List.mem_append.mp hc).elim isDigit_of_mem_digits isDigit_of_mem_zeros
  · refine ⟨_, ?_, ?_, .inr ⟨_, ?_, rfl⟩⟩
    · rw [ne_eq, List.take_eq_nil_iff]
      have hne : Nat.toDigits 10 d.digits ≠ [] := Nat.toDigits_ne_nil
      rintro (h | h)
      · omega
      · exact hne h
    · exact fun c hc => isDigit_of_mem_digits (List.mem_of_mem_take hc)
    · exact fun c hc => isDigit_of_mem_digits (List.mem_of_mem_drop hc)
  · refine ⟨['0'], by simp, List.forall_mem_singleton.mpr rfl, .inr ⟨_, ?_, rfl⟩⟩
    intro c hc
    exact (List.mem_append.mp hc).elim isDigit_of_mem_zeros isDigit_of_mem_digits

/-- The digits that a decimal starts with, and what follows them. -/
theorem whole_of_decimal {text : List Char} (h : IsDecimal text) :
    (text.takeWhile Char.isDigit).isEmpty = false ∧
      (text.dropWhile Char.isDigit = [] ∨
        ∃ places, (∀ c ∈ places, c.isDigit = true) ∧
          text.dropWhile Char.isDigit = '.' :: places) := by
  obtain ⟨whole, hne, hwhole, htext⟩ := h
  have hnotEmpty : whole.isEmpty = false := by simpa using hne
  rcases htext with rfl | ⟨places, hplaces, rfl⟩
  · rw [List.takeWhile_eq_self_iff.mpr hwhole]
    exact ⟨hnotEmpty, .inl (List.dropWhile_eq_nil_iff.mpr hwhole)⟩
  · rw [List.takeWhile_append_of_pos hwhole, List.dropWhile_append_of_pos hwhole]
    exact ⟨by simp [hnotEmpty], .inr ⟨places, hplaces, rfl⟩⟩

theorem readUnsigned_decimal {text : List Char} (h : IsDecimal text) :
    ∃ x, readUnsigned text = some x := by
  obtain ⟨hwhole, hrest⟩ := whole_of_decimal h
  unfold readUnsigned
  rcases hrest with hrest | ⟨places, hplaces, hrest⟩
  · simp only [hrest, hwhole, Bool.false_and, Bool.false_eq_true, if_false]
    split_ifs <;> exact ⟨_, rfl⟩
  · simp only [hrest, hwhole, Bool.false_and, Bool.false_eq_true, if_false,
      List.dropWhile_eq_nil_iff.mpr hplaces]
    split_ifs <;> exact ⟨_, rfl⟩

/-- **Every decimal is read.** -/
theorem read_decimal {text : List Char} (h : IsDecimal text) : ∃ x, read text = some x := by
  have hsign : ∀ c ∈ text.head?, c.isDigit = true := by
    obtain ⟨whole, hne, hwhole, htext⟩ := h
    obtain ⟨c, cs, rfl⟩ := List.exists_cons_of_ne_nil hne
    have hc := (List.forall_mem_cons.mp hwhole).1
    rcases htext with rfl | ⟨places, -, rfl⟩ <;> simpa using hc
  unfold read
  split
  · exact absurd (hsign '-' rfl) (by decide)
  · exact absurd (hsign '+' rfl) (by decide)
  · exact readUnsigned_decimal h

/-! ### Doubles -/

/-- The text of a finite double without its sign. -/
def magnitudeText (m : Nat) (e : Int) : String :=
  if m = 0 then "0" else ((shortest m e).trim 17).text

theorem isDecimal_magnitudeText (m : Nat) (e : Int) : IsDecimal (magnitudeText m e).toList := by
  rw [magnitudeText]
  split_ifs
  · exact .digit rfl
  · exact isDecimal_text _

theorem text_finite {x : Float} {s : UnpackedFloat.Sign} {m : Nat} {e : Int} {hm : 0 < m}
    (h : parts x = .finite s m e hm) :
    text x = if s == .negative then "-" ++ magnitudeText m e else magnitudeText m e := by
  rw [text, ofFloat?_eq, h]
  rfl

theorem parts_zero : parts Scalar.zero = .zero .positive := rfl

theorem finite_of_beq_zero : ∀ {u : UnpackedFloat}, u.isFinite = true →
    u.beq (.zero .positive) = false → ∃ s m e hm, u = .finite s m e hm
  | .infinity _, h, _ => nomatch h
  | .notANumber, h, _ => nomatch h
  | .zero _, _, h => nomatch h
  | .finite s m e hm, _, _ => ⟨s, m, e, hm, rfl⟩

theorem negative_of_lt_zero : ∀ {u : UnpackedFloat}, u.isFinite = true →
    u.lt (.zero .positive) = true → ∃ m e hm, u = .finite .negative m e hm
  | .infinity _, h, _ => nomatch h
  | .notANumber, h, _ => nomatch h
  | .zero _, _, h => nomatch h
  | .finite .positive _ _ _, _, h => nomatch h
  | .finite .negative m e hm, _, _ => ⟨m, e, hm, rfl⟩

theorem positive_of_zero_lt : ∀ {u : UnpackedFloat}, u.isFinite = true →
    (UnpackedFloat.zero .positive).lt u = true → ∃ m e hm, u = .finite .positive m e hm
  | .infinity _, h, _ => nomatch h
  | .notANumber, h, _ => nomatch h
  | .zero _, _, h => nomatch h
  | .finite .negative _ _ _, _, h => nomatch h
  | .finite .positive m e hm, _, _ => ⟨m, e, hm, rfl⟩

theorem parts_abs_finite {x : Float} {s : UnpackedFloat.Sign} {m : Nat} {e : Int} {hm : 0 < m}
    (h : parts x = .finite s m e hm) : parts (Scalar.abs x) = .finite .positive m e hm := by
  have habs : parts (Scalar.abs x) = (parts x).abs := parts_abs x
  rw [habs, h]
  rfl

/-- The text of a magnitude. -/
theorem text_abs {x : Float} {s : UnpackedFloat.Sign} {m : Nat} {e : Int} {hm : 0 < m}
    (h : parts x = .finite s m e hm) : Numeral.text (Scalar.abs x) = magnitudeText m e :=
  text_finite (parts_abs_finite h)

theorem isFinite_congr {u v : UnpackedFloat} (h : u.beq v = true) : u.isFinite = v.isFinite := by
  rcases u with ⟨_ | _⟩ | _ | s | ⟨_ | _, m, e, hm⟩ <;>
    rcases v with ⟨_ | _⟩ | _ | s' | ⟨_ | _, m', e', hm'⟩ <;>
    first | rfl | cases h

theorem not_abs_lt_zero (u : UnpackedFloat) : u.abs.lt (.zero .positive) = false := by
  cases u <;> rfl

instance : LawfulNumeral Float where
  isNaN_of_isFinite {x} h := by
    have hfinite : (parts x).isFinite = true := h
    rw [isNaN_eq]
    generalize parts x = u at hfinite
    cases u <;> first | rfl | cases hfinite
  isFinite_zero := by decide +kernel
  isFinite_one := by decide +kernel
  isFinite_negOne := by decide +kernel
  negOne_lt_zero := by decide +kernel
  zero_lt_one := by decide +kernel
  zero_lt_constant c := by cases c <;> decide +kernel
  isFinite_constant c := by cases c <;> decide +kernel
  isFinite_congr h := isFinite_congr h
  isFinite_abs {x} h := by
    have hfinite : (parts x).isFinite = true := h
    have habs : Scalar.isFinite (Scalar.abs x) = (parts x).abs.isFinite := by
      rw [← parts_abs]
      rfl
    rw [habs]
    generalize parts x = u at hfinite
    cases u <;> first | rfl | cases hfinite
  abs_nonneg {x} h := by
    rw [lt_eq_lt, parts_zero]
    exact (parts_abs x).symm ▸ not_abs_lt_zero (parts x)
  abs_of_pos {x} h hpos := by
    obtain ⟨m, e, hm, hx⟩ := positive_of_zero_lt (u := parts x) h ((lt_eq_lt _ _).symm.trans hpos)
    rw [eq_eq_beq, parts_abs_finite hx, hx]
    exact (beq_iff_rank rfl rfl).mpr rfl
  read_decimal := read_decimal
  read_zero := ⟨0.0, by decide +kernel, by decide +kernel⟩
  read_one := ⟨1.0, by decide +kernel, by decide +kernel⟩
  isDecimal_text {x} h hzero := by
    obtain ⟨s, m, e, hm, hx⟩ := finite_of_beq_zero (u := parts x) h hzero
    rw [text_abs hx]
    exact isDecimal_magnitudeText m e
  text_of_neg {x} h hneg := by
    obtain ⟨m, e, hm, hx⟩ := negative_of_lt_zero (u := parts x) h ((lt_eq_lt _ _).symm.trans hneg)
    rw [text_abs hx]
    exact text_finite hx
  text_of_pos {x} h hpos := by
    obtain ⟨m, e, hm, hx⟩ := positive_of_zero_lt (u := parts x) h ((lt_eq_lt _ _).symm.trans hpos)
    rw [text_abs hx]
    exact text_finite hx

end SymbolicAlgebra.Double
