import SymbolicAlgebra.Constant
import SymbolicAlgebra.Proofs.Expr.Occurs
import SymbolicAlgebra.Proofs.Order.Sort
import SymbolicAlgebra.Proofs.Plain.Scan

/-! # What plain text reads back as

Plain text keeps the nodes of an expression, but not the order of arguments, which reading settles,
and not every constant: minus signs are operators, and what is not finite has no literal.
`Expr.readBack` is the expression with its arguments rearranged and its constants replaced by what
their texts stand for. The laws of `LawfulNumeral` are what numbers and their texts need for
this. -/

namespace SymbolicAlgebra

/-- Numbers with an order, a magnitude, and texts of digits with a sign in front. -/
class LawfulNumeral (α : Type) [Scalar α] [Numeral α] : Prop extends OrderedScalar α where
  isNaN_of_isFinite {x : α} : Scalar.isFinite x = true → Scalar.isNaN x = false
  isFinite_zero : Scalar.isFinite (Scalar.zero : α) = true
  isFinite_one : Scalar.isFinite (Scalar.one : α) = true
  isFinite_negOne : Scalar.isFinite (Scalar.negOne : α) = true
  negOne_lt_zero : Scalar.lt (Scalar.negOne : α) Scalar.zero = true
  zero_lt_one : Scalar.lt Scalar.zero (Scalar.one : α) = true
  zero_lt_constant (c : Constant) : Scalar.lt Scalar.zero (c.value : α) = true
  isFinite_constant (c : Constant) : Scalar.isFinite (c.value : α) = true
  isFinite_congr {x y : α} : Scalar.eq x y = true → Scalar.isFinite x = Scalar.isFinite y
  isFinite_abs {x : α} : Scalar.isFinite x = true → Scalar.isFinite (Scalar.abs x) = true
  abs_nonneg {x : α} : Scalar.isFinite x = true → Scalar.lt (Scalar.abs x) Scalar.zero = false
  abs_of_pos {x : α} : Scalar.isFinite x = true → Scalar.lt Scalar.zero x = true →
    Scalar.eq (Scalar.abs x) x = true
  read_decimal {text : List Char} : Plain.IsDecimal text → ∃ x : α, Numeral.read text = some x
  read_zero : ∃ x : α, Numeral.read ['0'] = some x ∧ Scalar.eq x Scalar.zero = true
  read_one : ∃ x : α, Numeral.read ['1'] = some x ∧ Scalar.eq x Scalar.one = true
  isDecimal_text {x : α} : Scalar.isFinite x = true → Scalar.eq x Scalar.zero = false →
    Plain.IsDecimal (Numeral.text (Scalar.abs x)).toList
  text_of_neg {x : α} : Scalar.isFinite x = true → Scalar.lt x Scalar.zero = true →
    Numeral.text x = "-" ++ Numeral.text (Scalar.abs x)
  text_of_pos {x : α} : Scalar.isFinite x = true → Scalar.lt Scalar.zero x = true →
    Numeral.text x = Numeral.text (Scalar.abs x)

namespace Expr

variable {α : Type}

/-- **What can be typed**: sums, products, minima and maxima of at least two arguments, and
variables that are letters other than the name of a constant. -/
structure Typeable (e : Expr α) : Prop where
  two_le_length {f : Nary} {as : List (Expr α)} : Occurs (nary f as) e → 2 ≤ as.length
  isLetter {c : Char} : Occurs (var c) e → c.isAlpha = true ∧ c ≠ 'e'

theorem Typeable.of_mem {a e : Expr α} (h : e.Typeable) (ha : a ∈ e.children) : a.Typeable :=
  ⟨fun hocc => h.two_le_length (.inside ha hocc), fun hocc => h.isLetter (.inside ha hocc)⟩

variable [Scalar α]

/-- The text of the magnitude of each number reads back as that magnitude. -/
def Legible [Numeral α] (e : Expr α) : Prop :=
  ∀ x, Occurs (const x) e → Scalar.isFinite x = true →
    Numeral.read (Numeral.text (Scalar.abs x)).toList = some (Scalar.abs x)

/-- What the text of a number stands for. -/
def constantBack (x : α) : Expr α :=
  if Scalar.isNaN x then mod (const Scalar.one) (const Scalar.zero)
  else if Scalar.isFinite x then
    if Scalar.lt x Scalar.zero then product [const Scalar.negOne, const (Scalar.abs x)]
    else const x
  else if Scalar.lt x Scalar.zero then
    fraction (product [const Scalar.negOne, const Scalar.one]) (const Scalar.zero)
  else fraction (const Scalar.one) (const Scalar.zero)

mutual

/-- What the plain text of an expression stands for. -/
def readBack : Expr α → Expr α
  | const x => constantBack x
  | var c => var c
  | unary f a => unary f a.readBack
  | binary f a b => binary f a.readBack b.readBack
  | nary f as => nary f (arrange f (readBackList as))

/-- What the plain texts of the expressions stand for. -/
def readBackList : List (Expr α) → List (Expr α)
  | [] => []
  | a :: as => a.readBack :: readBackList as

end

/-- Numbers that are finite and not negative, and arguments in canonical order. -/
structure Settled (e : Expr α) : Prop where
  isFinite {x : α} : Occurs (const x) e → Scalar.isFinite x = true
  nonneg {x : α} : Occurs (const x) e → Scalar.lt x Scalar.zero = false
  sorted {f : Nary} {as : List (Expr α)} : Occurs (nary f as) e →
    as.Pairwise fun a b => mayPrecede f a b = true

theorem Settled.of_mem {a e : Expr α} (h : e.Settled) (ha : a ∈ e.children) : a.Settled :=
  ⟨fun hocc => h.isFinite (.inside ha hocc), fun hocc => h.nonneg (.inside ha hocc),
    fun hocc => h.sorted (.inside ha hocc)⟩

mutual

/-- **Settled expressions read back as themselves.** -/
theorem readBack_eq_self [Numeral α] [LawfulNumeral α] : ∀ {e : Expr α}, e.Settled → e.readBack = e
  | const x, h => by
    have hfinite := h.isFinite (.self _)
    rw [readBack, constantBack, LawfulNumeral.isNaN_of_isFinite hfinite, hfinite,
      h.nonneg (.self _)]
    rfl
  | var c, _ => rfl
  | unary f a, h => by
    rw [readBack, readBack_eq_self (h.of_mem List.mem_cons_self)]
  | binary f a b, h => by
    rw [readBack, readBack_eq_self (h.of_mem List.mem_cons_self),
      readBack_eq_self (h.of_mem (List.mem_cons_of_mem _ List.mem_cons_self))]
  | nary f as, h => by
    have hargs : readBackList as = as := readBackList_eq_self fun a ha => h.of_mem ha
    rw [readBack, hargs, arrange_eq_sort, StableSort.sort_eq_self (h.sorted (.self _))]

theorem readBackList_eq_self [Numeral α] [LawfulNumeral α] :
    ∀ {as : List (Expr α)}, (∀ a ∈ as, a.Settled) → readBackList as = as
  | [], _ => rfl
  | a :: as, h => by
    obtain ⟨ha, has⟩ := List.forall_mem_cons.mp h
    rw [readBackList, readBack_eq_self ha, readBackList_eq_self has]

end

end Expr

end SymbolicAlgebra
