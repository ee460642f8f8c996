import SymbolicAlgebra.Scalar

/-! # Functions

The functions that label the inner nodes of an expression, by the number of their arguments, with
their names, their place in the canonical order and the numbers they compute. -/

namespace SymbolicAlgebra

/-- A function written with a pair of enclosing glyphs. -/
inductive Bracket where
  | floor | ceil | abs
  deriving DecidableEq, Repr

namespace Bracket

def all : List Bracket := [floor, ceil, abs]

/-- The name of the function in typed text. -/
def name : Bracket → String
  | floor => "floor"
  | ceil => "ceil"
  | abs => "abs"

/-- The glyphs on either side of the argument. -/
def glyphs : Bracket → String × String
  | floor => ("⌊", "⌋")
  | ceil => ("⌈", "⌉")
  | abs => ("|", "|")

/-- The delimiters on either side of the argument in LaTeX. -/
def delimiters : Bracket → String × String
  | floor => ("\\lfloor ", " \\rfloor")
  | ceil => ("\\lceil ", " \\rceil")
  | abs => ("\\left| ", " \\right|")

def priority : Bracket → Nat
  | abs => 5
  | floor => 6
  | ceil => 7

variable {α : Type} [Scalar α]

/-- The number that the function gives. -/
def apply : Bracket → α → α
  | floor => Scalar.floor
  | ceil => Scalar.ceil
  | abs => Scalar.abs

end Bracket

/-- A trigonometric function or an inverse of one. Angles are in radians. -/
inductive Trig where
  | sin | cos | tan | csc | sec | cot | arcsin | arccos | arctan
  deriving DecidableEq, Repr

namespace Trig

def all : List Trig := [sin, cos, tan, csc, sec, cot, arcsin, arccos, arctan]

/-- The name of the function in typed text. -/
def name : Trig → String
  | sin => "sin"
  | cos => "cos"
  | tan => "tan"
  | csc => "csc"
  | sec => "sec"
  | cot => "cot"
  | arcsin => "arcsin"
  | arccos => "arccos"
  | arctan => "arctan"

/-- The inverse functions are those whose names start with arc. -/
def isInverse : Trig → Bool
  | arcsin | arccos | arctan => true
  | _ => false

/-- The inverse function that this function undoes. -/
def cancels? : Trig → Option Trig
  | sin => some arcsin
  | cos => some arccos
  | tan => some arctan
  | _ => none

def priority : Trig → Nat
  | sin => 8
  | cos => 9
  | tan => 10
  | csc => 11
  | sec => 12
  | cot => 13
  | arcsin => 14
  | arccos => 15
  | arctan => 16

variable {α : Type} [Scalar α]

/-- The number that the function gives. -/
def apply : Trig → α → α
  | sin => Scalar.sin
  | cos => Scalar.cos
  | tan => Scalar.tan
  | csc => fun x => Scalar.recip (Scalar.sin x)
  | sec => fun x => Scalar.recip (Scalar.cos x)
  | cot => fun x => Scalar.recip (Scalar.tan x)
  | arcsin => Scalar.arcsin
  | arccos => Scalar.arccos
  | arctan => Scalar.arctan

end Trig

/-- A function of one argument. -/
inductive Unary where
  | bracket (kind : Bracket)
  | trig (kind : Trig)
  | sign
  deriving DecidableEq, Repr

/-- A function of two arguments: numerator and denominator, base and exponent, base and argument,
dividend and divisor. -/
inductive Binary where
  | fraction | power | log | mod
  deriving DecidableEq, Repr

/-- A function of any number of arguments. -/
inductive Nary where
  | sum | product | min | max
  deriving DecidableEq, Repr

variable {α : Type} [Scalar α]

/-- The number that the function gives. -/
def Unary.apply : Unary → α → α
  | bracket kind => kind.apply
  | trig kind => kind.apply
  | sign => Scalar.sign

/-- The number that the function gives. -/
def Binary.apply : Binary → α → α → α
  | fraction => Scalar.div
  | power => Scalar.pow
  | log => Scalar.log
  | mod => Scalar.rem

/-- The number that the function gives. -/
def Nary.apply : Nary → List α → α
  | sum => Scalar.sum
  | product => Scalar.product
  | min => Scalar.minimum
  | max => Scalar.maximum

/-- What a node of an expression is, apart from its arguments. -/
inductive Head where
  | const
  | var
  | unary (f : Unary)
  | binary (f : Binary)
  | nary (f : Nary)
  deriving DecidableEq, Repr

/-- The place of a kind of node in the canonical order: the lower one comes first. -/
def Head.priority : Head → Nat
  | const => 0
  | var => 1
  | binary .power => 2
  | binary .fraction => 3
  | binary .log => 4
  | unary (.bracket kind) => kind.priority
  | unary (.trig kind) => kind.priority
  | unary .sign => 17
  | binary .mod => 18
  | nary .max => 19
  | nary .min => 20
  | nary .product => 21
  | nary .sum => 22

namespace Head

/-- Every kind of node. -/
def all : List Head :=
  [const, var] ++ Bracket.all.map (fun kind => unary (.bracket kind)) ++
    Trig.all.map (fun kind => unary (.trig kind)) ++ [unary .sign] ++
    [.fraction, .power, .log, .mod].map binary ++ [.sum, .product, .min, .max].map nary

theorem mem_all : ∀ h : Head, h ∈ all
  | const => by decide
  | var => by decide
  | unary (.bracket kind) => by cases kind <;> decide
  | unary (.trig kind) => by cases kind <;> decide
  | unary .sign => by decide
  | binary f => by cases f <;> decide
  | nary f => by cases f <;> decide

theorem priority_injective_of_mem :
    ∀ h ∈ all, ∀ k ∈ all, h.priority = k.priority → h = k := by decide +kernel

/-- **Kinds of nodes and priorities determine each other.** -/
theorem priority_injective {h k : Head} (e : h.priority = k.priority) : h = k :=
  priority_injective_of_mem h (mem_all h) k (mem_all k) e

end Head

end SymbolicAlgebra
