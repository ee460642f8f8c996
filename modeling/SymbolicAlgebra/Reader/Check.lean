import SymbolicAlgebra.Reader.Cursor

/-! # Checks before reading

Faults that show in the row of tokens alone, whatever the expression means: no tokens at all, a
symbol, a bracket without a partner, two operators side by side. They are looked for in this order,
and the first one found is reported. -/

namespace SymbolicAlgebra.Reader

/-- The first symbol. -/
def symbolFault? (tokens : List Token) : Option Fault :=
  (tokens.find? fun t => t.kind == .symbol).map fun t =>
    .on t.span (.invalidCharacter t.slice.toString)

/-- The first closing bracket without a partner, or else the last opening one, when the brackets
before these tokens that are still open are given, the last one first. -/
def bracketFault? : List Token → List Token → Option Fault
  | [], [] => none
  | t :: _, [] => some (.on t.span (.unclosedBracket true))
  | stack, t :: rest =>
    match t.kind, stack with
    | .opening, _ => bracketFault? (t :: stack) rest
    | .closing, _ :: outer => bracketFault? outer rest
    | .closing, [] => some (.on t.span (.unclosedBracket false))
    | _, _ => bracketFault? stack rest

/-- Whether an operator may directly follow another one: a minus after a product, quotient or
power sign negates what comes next. -/
def mayFollow (first second : TokenKind) : Bool :=
  second == .minus && (first == .times || first == .slash || first == .caret)

/-- The first two operators side by side of which the second may not follow the first. -/
def operatorFault? : List Token → Option Fault
  | first :: second :: rest =>
    if first.kind.isOperator && second.kind.isOperator && !mayFollow first.kind second.kind then
      some ⟨[first.span, second.span],
        .doubledOperator first.slice.toString second.slice.toString⟩
    else operatorFault? (second :: rest)
  | _ => none

/-- The fault of having nothing to read. -/
def emptyFault? (length : Nat) (tokens : List Token) : Option Fault :=
  if tokens.isEmpty then some (.on ⟨0, length⟩ .emptyExpression) else none

/-- The first fault of a row of tokens from a text of the given length. -/
def fault? (length : Nat) (tokens : List Token) : Option Fault :=
  emptyFault? length tokens <|> symbolFault? tokens <|> bracketFault? [] tokens <|>
    operatorFault? tokens

end SymbolicAlgebra.Reader
