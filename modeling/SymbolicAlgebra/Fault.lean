import SymbolicAlgebra.Callable
import SymbolicAlgebra.Token

/-! # Faults

What can be wrong with a line: a cause, and the spans of the text that it points at. Each cause has
a message, a label for every span, and usually some help; the wording of all of them is here. -/

namespace SymbolicAlgebra

/-- Why something could not be done. -/
inductive Cause where
  /-- There is nothing to read. -/
  | emptyExpression
  /-- The text ends where an operand or a bracket should be. -/
  | unexpectedEnd
  /-- A complete expression is followed by something else. -/
  | expectedEnd
  | unexpectedToken (expected : List TokenKind) (found : TokenKind)
  /-- Two operands stand side by side. -/
  | missingOperator
  /-- A bracket has no partner. -/
  | unclosedBracket (opening : Bool)
  | doubledOperator (first second : String)
  | invalidCharacter (character : String)
  | invalidNumber (lexeme : String)
  /-- A name is no variable, constant or function. -/
  | unknownName (name : String) (suggestions : List String)
  | wrongArgumentCount (function : Callable) (given : Nat)
  | undefinedVariable (name : Char)
  /-- A function without a derivative. -/
  | undifferentiable (function : String)
  | unknownCommand (name : String)
  /-- A command without an expression. -/
  | missingExpression (usage : String)
  /-- Something else than a letter to differentiate by. -/
  | invalidVariable (found : String)
  | invalidBinding
  deriving DecidableEq, Repr

namespace Cause

/-- A text between backquotes. -/
def quote (s : String) : String := "`" ++ s ++ "`"

/-- The headline of the report. -/
def message : Cause → String
  | emptyExpression => "missing expression"
  | unexpectedEnd => "unexpected end of expression"
  | expectedEnd => "expected end of expression"
  | unexpectedToken _ _ => "unexpected token"
  | missingOperator => "missing operator"
  | unclosedBracket _ => "unclosed parenthesis"
  | doubledOperator first second => quote second ++ " cannot follow " ++ quote first
  | invalidCharacter character => "invalid character " ++ quote character
  | invalidNumber lexeme => "invalid number " ++ quote lexeme
  | unknownName name _ => "unknown symbol " ++ quote name
  | wrongArgumentCount function _ => "wrong number of arguments for " ++ quote function.name
  | undefinedVariable name => quote name.toString ++ " is not defined"
  | undifferentiable function => "the " ++ quote function ++ " function cannot be differentiated"
  | unknownCommand name => "unknown command " ++ quote (":" ++ name)
  | missingExpression _ => "missing expression"
  | invalidVariable found => quote found ++ " is not a variable"
  | invalidBinding => "invalid binding"

/-- What is said at each span. -/
def labels : Cause → List String
  | emptyExpression => ["add an expression here"]
  | unexpectedEnd => ["you might need to add another expression here"]
  | expectedEnd => ["I could not understand the remaining expression here"]
  | unexpectedToken expected _ =>
    ["expected one of: " ++ String.intercalate ", " (expected.map TokenKind.label)]
  | missingOperator => ["add an operator before this"]
  | unclosedBracket _ => ["this parenthesis is not closed"]
  | doubledOperator _ _ => ["this operator", "is followed by this operator"]
  | invalidCharacter _ => ["here"]
  | invalidNumber _ => ["this number"]
  | unknownName _ _ => ["this symbol"]
  | wrongArgumentCount _ given => ["this call has " ++ toString given ++ " argument(s)"]
  | undefinedVariable _ => ["this variable"]
  | undifferentiable _ => []
  | unknownCommand _ => ["this command"]
  | missingExpression _ => ["add an expression after this"]
  | invalidVariable _ => ["expected a single letter here"]
  | invalidBinding => ["this binding"]

/-- What can be done about it. -/
def help? : Cause → Option String
  | emptyExpression => none
  | unexpectedEnd => none
  | expectedEnd => none
  | unexpectedToken _ found => some ("found " ++ found.label)
  | missingOperator =>
    some ("multiplication must be written with `*`, except between bracketed groups such as " ++
      "`(a)(b)`")
  | unclosedBracket true => some "add a closing parenthesis `)` somewhere after this"
  | unclosedBracket false => some "add an opening parenthesis `(` somewhere before this"
  | doubledOperator _ _ => some "only `-` may directly follow `*`, `/`, or `^`"
  | invalidCharacter _ => none
  | invalidNumber _ => none
  | unknownName _ [] =>
    some "variables are single letters; write products of variables with `*`"
  | unknownName _ suggestions =>
    some ("did you mean " ++ String.intercalate ", " (suggestions.map quote) ++ "?")
  | wrongArgumentCount function _ =>
    some (quote function.name ++ " takes " ++ function.arity.describe ++ " argument(s)")
  | undefinedVariable name =>
    some ("to define it, bind a value to it, such as: " ++ name.toString ++ " = 1")
  | undifferentiable function =>
    some (quote function ++ " is not continuous, so it has no symbolic derivative")
  | unknownCommand _ => some "available commands: :diff, :eval, :latex, :plain, :vars"
  | missingExpression usage => some ("usage: " ++ usage)
  | invalidVariable _ => some "usage: :diff <var> <expr>"
  | invalidBinding => some "bind variables to numbers, separated by commas: where x=1, y=2"

end Cause

/-- A cause and the spans it points at. -/
structure Fault where
  spans : List Span
  cause : Cause
  deriving DecidableEq, Repr

namespace Fault

/-- A fault of one span. -/
def on (span : Span) (cause : Cause) : Fault := ⟨[span], cause⟩

/-- A fault of no span in particular. -/
def nowhere (cause : Cause) : Fault := ⟨[], cause⟩

/-- The labels of the spans. A fault without spans has none. -/
def labels (f : Fault) : List String := f.cause.labels.take f.spans.length

/-- The fault with its spans moved to the right. -/
def shift (offset : Nat) (f : Fault) : Fault := ⟨f.spans.map (Span.shift offset), f.cause⟩

end Fault

end SymbolicAlgebra
