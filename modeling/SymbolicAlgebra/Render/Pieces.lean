import SymbolicAlgebra.Constant
import SymbolicAlgebra.Expr.Basic

/-! # Pieces of renderings

What the renderings of expressions share: the text of constants, the joining of terms and factors,
and which arguments need brackets. -/

namespace SymbolicAlgebra.Render

variable {α : Type} [Scalar α] [Numeral α]

/-! ### Text -/

/-- The texts with a separator between them. -/
def join (separator : String) : List String → String
  | [] => ""
  | [s] => s
  | s :: t :: rest => s ++ separator ++ join separator (t :: rest)

/-- A text in round brackets. -/
def inBrackets (s : String) : String := "(" ++ s ++ ")"

/-- A text in round brackets if they are needed. -/
def bracketIf (needed : Bool) (s : String) : String := if needed then inBrackets s else s

def startsWithMinus (s : String) : Bool := s.toList.head? == some '-'

/-- The text of a number; zero has no sign. -/
def number (x : α) : String := if Scalar.eq x Scalar.zero then "0" else Numeral.text x

/-- The text of a constant: one way of writing the named ones, and the number of all others. -/
def constant (write : Constant → String) (x : α) : String :=
  match Constant.ofValue? x with
  | some c => write c
  | none => number x

/-! ### Terms and factors -/

/-- Terms and their texts, after the first one, each with a plus in front unless it is negative
and so brings a sign of its own. -/
def moreTerms : List (Expr α × String) → String
  | [] => ""
  | (term, text) :: rest => (if term.isNegative then text else "+" ++ text) ++ moreTerms rest

/-- A sum of terms, given with their texts. -/
def terms : List (Expr α × String) → String
  | [] => ""
  | (_, text) :: rest => text ++ moreTerms rest

/-- What is put between two factors: nothing after a sign, the separator where two numbers would
run into one, and the space elsewhere. -/
def gap (space separator left right : String) : String :=
  match left.toList.getLast?, right.toList.head? with
  | none, _ => ""
  | some '-', _ => ""
  | some last, some next =>
    if last.isDigit && (next.isDigit || next == '.') then separator else space
  | some _, none => space

/-- A product of factors; a minus one in front of others is written as a sign. -/
def factors (space separator : String) : List String → String
  | [] => ""
  | [s] => s
  | first :: rest =>
    rest.foldl (fun out s => out ++ gap space separator out s ++ s)
      (if first = "-1" then "-" else first)

/-- The text of a factor after the first one: bracketed if it is a sum or starts with a sign. -/
def laterFactor (bracket : String → String) (factor : Expr α) (text : String) : String :=
  if factor.isSum || startsWithMinus text then bracket text else text

/-- The texts of the factors of a product: sums are bracketed, and so are signs after the first
factor. -/
def factorTexts (bracket : String → String) : List (Expr α × String) → List String
  | [] => []
  | (factor, text) :: rest =>
    (if factor.isSum then bracket text else text) ::
      rest.map fun (factor, text) => laterFactor bracket factor text

/-! ### Brackets -/

/-- Whether the argument of a function written without brackets needs them after all. -/
def callNeedsBrackets : Expr α → Bool
  | .sum _ | .product _ | .power _ _ | .fraction _ _ | .log _ _ => true
  | .const x => Scalar.lt x Scalar.zero
  | _ => false

/-- Whether the base of a power needs brackets. -/
def baseNeedsBrackets : Expr α → Bool
  | .var _ | .bracket _ _ => false
  | .const x => Scalar.lt x Scalar.zero
  | _ => true

/-- Whether the exponent of a power needs brackets. -/
def exponentNeedsBrackets : Expr α → Bool
  | .fraction _ _ | .sum _ | .product _ | .power _ _ => true
  | _ => false

/-- Whether the denominator of a fraction needs brackets. -/
def denominatorNeedsBrackets : Expr α → Bool
  | .sum _ | .product _ | .fraction _ _ => true
  | _ => false

/-- Whether a power with this exponent is a square root. -/
def isSquareRoot (exponent : Expr α) : Bool := exponent.isConstant Scalar.half

/-- Whether the base of a logarithm stands without brackets. -/
def isSimpleBase : Expr α → Bool
  | .var _ | .const _ => true
  | _ => false

end SymbolicAlgebra.Render
