import SymbolicAlgebra.Render.Pieces

/-! # LaTeX

The source of a LaTeX formula. Groups are in braces, visible brackets grow with what they hold. -/

namespace SymbolicAlgebra.Render

variable {α : Type} [Scalar α] [Numeral α]

/-- A text as a group. -/
def inBraces (s : String) : String := "\x7b" ++ s ++ "\x7d"

/-- A text in brackets that grow with it. -/
def inGrowing (s : String) : String := "\\left(" ++ s ++ "\\right)"

/-- An operator name with arguments in brackets. -/
def latexApplication (name : String) (texts : List String) : String :=
  name ++ inGrowing (join ", " texts)

/-- A function name with a group for its argument. -/
def latexCall (name : String) (arg : Expr α) (text : String) : String :=
  name ++ inBraces (if callNeedsBrackets arg then inGrowing text else text)

/-- The command of a trigonometric function: an inverse function is a power of minus one of what
follows arc in its name. -/
def latexTrig (kind : Trig) : String :=
  if kind.isInverse then "\\" ++ .ofList (kind.name.toList.drop 3) ++ "^" ++ inBraces "-1"
  else "\\" ++ kind.name

mutual

/-- The LaTeX of an expression. -/
def latex : Expr α → String
  | .const x => constant Constant.latex x
  | .var name => name.toString
  | .unary (.bracket kind) a => kind.delimiters.1 ++ latex a ++ kind.delimiters.2
  | .unary (.trig kind) a => latexCall (latexTrig kind) a (latex a)
  | .unary .sign a => latexApplication ("\\operatorname" ++ inBraces "sign") [latex a]
  | .binary .fraction a b => "\\dfrac" ++ inBraces (latex a) ++ inBraces (latex b)
  | .binary .power a b =>
    if isSquareRoot b then "\\sqrt" ++ inBraces (latex a)
    else
      (if baseNeedsBrackets a then inGrowing (latex a) else latex a) ++ "^" ++ inBraces (latex b)
  | .binary .log a b =>
    latexCall (if a.isEuler then "\\ln" else "\\log_" ++ inBraces (latex a)) b (latex b)
  | .binary .mod a b => latexApplication ("\\operatorname" ++ inBraces "mod") [latex a, latex b]
  | .nary .sum as => terms (as.zip (latexList as))
  | .nary .product as => factors " " " \\cdot " (factorTexts inGrowing (as.zip (latexList as)))
  | .nary .min as => latexApplication "\\min" (latexList as)
  | .nary .max as => latexApplication "\\max" (latexList as)

/-- The LaTeX of the expressions. -/
def latexList : List (Expr α) → List String
  | [] => []
  | a :: as => latex a :: latexList as

end

end SymbolicAlgebra.Render
