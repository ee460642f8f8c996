import Mathlib.Data.List.TakeWhile
import Mathlib.Tactic.SplitIfs
import SymbolicAlgebra.Double.Instances
import SymbolicAlgebra.Proofs.Text.Words

/-! # The characters of a literal

A text that a double is read from has letters, digits, signs and points only. -/

namespace SymbolicAlgebra.Double

/-- A character that a literal can have. -/
def isLiteral (c : Char) : Bool := c.isAlphanum || c == '+' || c == '-' || c == '.'

theorem isLiteral_of_isDigit {c : Char} (h : c.isDigit = true) : isLiteral c = true := by
  have hc : c.isAlphanum = true := Bool.or_eq_true_iff.mpr (.inr h)
  simp [isLiteral, hc]

theorem isLiteral_of_isAlpha {c : Char} (h : c.isAlpha = true) : isLiteral c = true := by
  have hc : c.isAlphanum = true := Bool.or_eq_true_iff.mpr (.inl h)
  simp [isLiteral, hc]

/-- Only capital letters have other letters for lower case. -/
theorem isAlpha_of_toLower {c : Char} (h : c.toLower.isAlpha = true) : c.isAlpha = true := by
  unfold Char.toLower at h
  split at h
  · next hupper => exact Bool.or_eq_true_iff.mpr (.inl (decide_eq_true hupper))
  · exact h

/-- A name, in any case. -/
theorem isLiteral_of_name {cs name : List Char} (hname : name.all Char.isAlpha = true)
    (h : (cs.map Char.toLower == name) = true) : ∀ c ∈ cs, isLiteral c = true := by
  intro c hc
  rw [beq_iff_eq] at h
  refine isLiteral_of_isAlpha (isAlpha_of_toLower (List.all_eq_true.mp hname _ ?_))
  rw [← h]
  exact List.mem_map_of_mem hc

theorem isLiteral_of_readExponent {cs : List Char} {e : Int} (h : readExponent cs = some e) :
    ∀ c ∈ cs, isLiteral c = true := by
  have hdigits {ds : List Char} (h : ds.all Char.isDigit = true) : ∀ c ∈ ds, isLiteral c = true :=
    fun c hc => isLiteral_of_isDigit (List.all_eq_true.mp h c hc)
  cases cs with
  | nil => exact List.forall_mem_nil _
  | cons c cs =>
    simp only [readExponent] at h
    obtain ⟨hexponent, -⟩ := Option.ite_none_right_eq_some.mp h
    simp only [Bool.and_eq_true, Bool.or_eq_true, beq_iff_eq] at hexponent
    obtain ⟨⟨hc, -⟩, hds⟩ := hexponent
    refine List.forall_mem_cons.mpr ⟨by rcases hc with rfl | rfl <;> rfl, ?_⟩
    split at hds
    · exact List.forall_mem_cons.mpr ⟨rfl, hdigits hds⟩
    · exact List.forall_mem_cons.mpr ⟨rfl, hdigits hds⟩
    · exact hdigits hds

theorem isLiteral_of_readUnsigned {cs : List Char} {x : Float} (h : readUnsigned cs = some x) :
    ∀ c ∈ cs, isLiteral c = true := by
  have hdigits (ds : List Char) : ∀ c ∈ ds.takeWhile Char.isDigit, isLiteral c = true :=
    fun c hc => isLiteral_of_isDigit (List.mem_takeWhile_imp hc)
  unfold readUnsigned at h
  simp only at h
  split_ifs at h with hinf hnan hempty
  · rcases Bool.or_eq_true_iff.mp hinf with hname | hname
    · exact isLiteral_of_name (by decide) hname
    · exact isLiteral_of_name (by decide) hname
  · exact isLiteral_of_name (by decide) hnan
  · obtain ⟨e, he, -⟩ := Option.map_eq_some_iff.mp h
    have hexponent := isLiteral_of_readExponent he
    rw [← List.takeWhile_append_dropWhile (p := Char.isDigit) (l := cs)]
    refine List.forall_mem_append.mpr ⟨hdigits cs, ?_⟩
    generalize cs.dropWhile Char.isDigit = rest at hexponent ⊢
    split at hexponent
    · next ds =>
      rw [← List.takeWhile_append_dropWhile (p := Char.isDigit) (l := ds)]
      exact List.forall_mem_cons.mpr ⟨rfl, List.forall_mem_append.mpr ⟨hdigits ds, hexponent⟩⟩
    · exact hexponent

theorem isLiteral_of_read {cs : List Char} {x : Float} (h : read cs = some x) :
    ∀ c ∈ cs, isLiteral c = true := by
  unfold read at h
  split at h
  · obtain ⟨y, hy, -⟩ := Option.map_eq_some_iff.mp h
    exact List.forall_mem_cons.mpr ⟨rfl, isLiteral_of_readUnsigned hy⟩
  · exact List.forall_mem_cons.mpr ⟨rfl, isLiteral_of_readUnsigned h⟩
  · exact isLiteral_of_readUnsigned h

theorem ne_comma_of_isLiteral {c : Char} (h : isLiteral c = true) : c ≠ ',' := by
  rintro rfl
  cases h

theorem isBlank_of_isDigit {c : Char} (h : c.isDigit = true) : Text.isBlank c = false := by
  obtain ⟨low, high⟩ := Bool.and_eq_true_iff.mp h
  have hlow : 48 ≤ c.toNat := UInt32.le_iff_toNat_le.mp (of_decide_eq_true low)
  have hhigh : c.toNat ≤ 57 := UInt32.le_iff_toNat_le.mp (of_decide_eq_true high)
  simp only [Text.isBlank, Text.blankRanges, List.any_cons, List.any_nil, Bool.or_false,
    Bool.or_eq_false_iff, Bool.and_eq_false_iff, decide_eq_false_iff_not]
  omega

theorem isBlank_of_isLiteral {c : Char} (h : isLiteral c = true) : Text.isBlank c = false := by
  simp only [isLiteral, Bool.or_eq_true, beq_iff_eq] at h
  obtain ((h | rfl) | rfl) | rfl := h
  · obtain h | h := Bool.or_eq_true_iff.mp h
    · exact Text.isBlank_of_isLetter (Text.isLetter_of_isAlpha h)
    · exact isBlank_of_isDigit h
  · rfl
  · rfl
  · rfl

end SymbolicAlgebra.Double
