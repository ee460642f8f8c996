import SymbolicAlgebra.Scalar

/-! # Named constants

The numbers that have a name in typed text. A constant with the value of one of them is written by
that name, however it came about. -/

namespace SymbolicAlgebra

/-- A number with a name. -/
inductive Constant where
  | pi | euler | golden
  deriving DecidableEq, Repr

namespace Constant

def all : List Constant := [pi, euler, golden]

/-- The name in typed text. -/
def name : Constant → String
  | pi => "pi"
  | euler => "e"
  | golden => "phi"

/-- The Unicode symbol. -/
def symbol : Constant → String
  | pi => "π"
  | euler => "e"
  | golden => "ϕ"

/-- The LaTeX command. -/
def latex : Constant → String
  | pi => "\\pi"
  | euler => "e"
  | golden => "\\varphi"

/-- The constant of a name. -/
def ofName? (name : List Char) : Option Constant := all.find? fun c => c.name.toList == name

variable {α : Type} [Scalar α]

def value : Constant → α
  | pi => Scalar.pi
  | euler => Scalar.euler
  | golden => Scalar.golden

/-- The constant of a value. -/
def ofValue? (x : α) : Option Constant := all.find? fun c => Scalar.eq c.value x

end Constant

end SymbolicAlgebra
