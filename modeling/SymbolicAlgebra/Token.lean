import SymbolicAlgebra.Text.Slice

/-! # Tokens

The text of an expression is cut into tokens from left to right, each as long as possible: a run of
layout, a run of letters, a number (digits with at most one point, and at least one digit), a
bracket, an operator or separator, and any other character alone as a symbol. Nothing is lost, and
no text is refused here.

A token grows character by character. Its `Shape` is all that the past of a token says about which
characters may still join it. -/

namespace SymbolicAlgebra

/-- The kinds of tokens. Brackets of all shapes are alike. -/
inductive TokenKind where
  | layout
  | plus
  | minus
  | times
  | slash
  | caret
  | comma
  | underscore
  | opening
  | closing
  | number
  | name
  | symbol
  deriving DecidableEq, Repr

namespace TokenKind

def all : List TokenKind :=
  [layout, plus, minus, times, slash, caret, comma, underscore, opening, closing, number, name,
    symbol]

/-- The name of the kind in messages. -/
def label : TokenKind → String
  | layout => "Whitespace"
  | plus => "Add"
  | minus => "Sub"
  | times => "Mul"
  | slash => "Div"
  | caret => "Exp"
  | comma => "Comma"
  | underscore => "Underscore"
  | opening => "OpenParen"
  | closing => "CloseParen"
  | number => "Number"
  | name => "Name"
  | symbol => "Symbol"

/-- The infix operators. -/
def isOperator : TokenKind → Bool
  | plus | minus | times | slash | caret => true
  | _ => false

/-- The kinds that an operand can start with. -/
def startsOperand : TokenKind → Bool
  | number | name | opening => true
  | _ => false

end TokenKind

/-- A token with its place in the text. -/
structure Token where
  kind : TokenKind
  slice : Slice
  deriving DecidableEq, Repr

namespace Token

/-- The characters of the token. -/
def lexeme (t : Token) : List Char := t.slice.text

def span (t : Token) : Span := t.slice.span

/-- What the characters of an unfinished token are, as far as the next character is concerned. -/
inductive Shape where
  | layout
  | letters
  | whole
  | places
  | point
  | single (kind : TokenKind)
  deriving DecidableEq, Repr

/-- Space, tab, and the ends of lines. -/
def isLayout (c : Char) : Bool := c == ' ' || c == '\t' || c == '\n' || c == '\r'

namespace Shape

/-- The kind of a character that is a token by itself. -/
def kindOfChar : Char → TokenKind
  | '+' => .plus
  | '-' => .minus
  | '*' => .times
  | '/' => .slash
  | '^' => .caret
  | ',' => .comma
  | '_' => .underscore
  | '(' | '[' | '{' => .opening
  | ')' | ']' | '}' => .closing
  | _ => .symbol

/-- The shape of a token of one character. -/
def ofChar (c : Char) : Shape :=
  if isLayout c then layout
  else if c.isAlpha then letters
  else if c.isDigit then whole
  else if c = '.' then point
  else single (kindOfChar c)

/-- The shape after one more character, if the character joins the token. -/
def extend? : Shape → Char → Option Shape
  | layout, c => if isLayout c then some layout else none
  | letters, c => if c.isAlpha then some letters else none
  | whole, c => if c.isDigit then some whole else if c = '.' then some places else none
  | places, c => if c.isDigit then some places else none
  | point, c => if c.isDigit then some places else none
  | single _, _ => none

/-- The kind of a token that ends in this shape. A point without digits is a symbol. -/
def kind : Shape → TokenKind
  | layout => .layout
  | letters => .name
  | whole => .number
  | places => .number
  | point => .symbol
  | single kind => kind

end Shape

/-- The tokens of a text, given the token that is being read: its shape, its place, and its
characters so far, the last one first. -/
def scanFrom (shape : Shape) (start : Nat) (seen : List Char) : List Char → List Token
  | [] => [⟨shape.kind, start, seen.reverse⟩]
  | c :: cs =>
    match shape.extend? c with
    | some longer => scanFrom longer start (c :: seen) cs
    | none =>
      ⟨shape.kind, start, seen.reverse⟩ ::
        scanFrom (.ofChar c) (start + Text.bytes seen) [c] cs

/-- The tokens of a text, layout included. -/
def scan : List Char → List Token
  | [] => []
  | c :: cs => scanFrom (.ofChar c) 0 [c] cs

end Token

end SymbolicAlgebra
