import SymbolicAlgebra.Render.Pieces

/-! # Plain text

Fully bracketed text that reads back as an equivalent expression. Numbers that have no literal are
written as expressions with their value: a remainder by zero for what is not a number, a division
by zero for the infinities. -/

namespace SymbolicAlgebra.Render

variable {α : Type} [Scalar α] [Numeral α]

/-- The plain text of a constant. -/
def plainConstant (x : α) : String :=
  if Scalar.isNaN x then "mod(1,0)"
  else if Scalar.isFinite x then constant Constant.name x
  else if Scalar.lt x Scalar.zero then "((-1)/(0))" else "((1)/(0))"

/-- Bracketed texts with an operator between them, all in brackets. -/
def operation (operator : String) (texts : List String) : String :=
  inBrackets (join operator (texts.map inBrackets))

/-- A call with its arguments. -/
def application (name separator : String) (texts : List String) : String :=
  name ++ inBrackets (join separator texts)

mutual

/-- The plain text of an expression. -/
def plain : Expr α → String
  | .const x => plainConstant x
  | .var name => name.toString
  | .unary (.bracket kind) a => application kind.name "," [plain a]
  | .unary (.trig kind) a => application kind.name "," [plain a]
  | .unary .sign a => application "sign" "," [plain a]
  | .binary .fraction a b => operation "/" [plain a, plain b]
  | .binary .power a b => inBrackets (plain a) ++ "^" ++ inBrackets (plain b)
  | .binary .log a b =>
    if a.isEuler then application "ln" "," [plain b]
    else "log_" ++ inBrackets (plain a) ++ "_" ++ inBrackets (plain b)
  | .binary .mod a b => application "mod" "," [plain a, plain b]
  | .nary .sum as => operation "+" (plainList as)
  | .nary .product as => operation "*" (plainList as)
  | .nary .min as => application "min" "," (plainList as)
  | .nary .max as => application "max" "," (plainList as)

/-- The plain texts of the expressions. -/
def plainList : List (Expr α) → List String
  | [] => []
  | a :: as => plain a :: plainList as

end

end SymbolicAlgebra.Render
