import SymbolicAlgebra.Render.Plain

/-! # Annotated text

Compact text with Unicode symbols: factors stand side by side, brackets only where they are needed,
`√`, `⌊ ⌋` and the symbols of the named constants. -/

namespace SymbolicAlgebra.Render

variable {α : Type} [Scalar α] [Numeral α]

/-- A function in front of its argument, given with its text. -/
def annotatedCall (name : String) (arg : Expr α) (text : String) : String :=
  name ++ bracketIf (callNeedsBrackets arg) text

/-- A logarithm; a space keeps the base apart from an argument without brackets. -/
def annotatedLog (base : Expr α) (baseText : String) (arg : Expr α) (text : String) : String :=
  if base.isEuler then annotatedCall "ln" arg text
  else
    "log_" ++ bracketIf (!isSimpleBase base) baseText ++
      (if callNeedsBrackets arg then inBrackets text else " " ++ text)

mutual

/-- The annotated text of an expression. -/
def annotated : Expr α → String
  | .const x => constant Constant.symbol x
  | .var name => name.toString
  | .unary (.bracket kind) a => kind.glyphs.1 ++ annotated a ++ kind.glyphs.2
  | .unary (.trig kind) a => annotatedCall kind.name a (annotated a)
  | .unary .sign a => application "sign" ", " [annotated a]
  | .binary .fraction a b =>
    inBrackets (bracketIf a.isSum (annotated a) ++ "/" ++
      bracketIf (denominatorNeedsBrackets b) (annotated b))
  | .binary .power a b =>
    if isSquareRoot b then "√" ++ inBrackets (annotated a)
    else
      bracketIf (baseNeedsBrackets a) (annotated a) ++ "^" ++
        bracketIf (exponentNeedsBrackets b) (annotated b)
  | .binary .log a b => annotatedLog a (annotated a) b (annotated b)
  | .binary .mod a b => application "mod" ", " [annotated a, annotated b]
  | .nary .sum as => terms (as.zip (annotatedList as))
  | .nary .product as => factors "" "·" (factorTexts inBrackets (as.zip (annotatedList as)))
  | .nary .min as => application "min" ", " (annotatedList as)
  | .nary .max as => application "max" ", " (annotatedList as)

/-- The annotated texts of the expressions. -/
def annotatedList : List (Expr α) → List String
  | [] => []
  | a :: as => annotated a :: annotatedList as

end

end SymbolicAlgebra.Render
