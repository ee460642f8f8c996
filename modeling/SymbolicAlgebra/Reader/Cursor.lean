import SymbolicAlgebra.Fault
import SymbolicAlgebra.VarSet

/-! # Readers

A reader stands somewhere among the tokens of a text and remembers the variables it has met. It
holds the tokens behind it, the last one first, and the tokens ahead, so that neither can change
unnoticed. Layout and empty pairs of brackets are removed before reading starts.

Reading is a state action with three outcomes: a value, a fault, or no more fuel. A fault keeps the
reader where it was when the fault came up. -/

namespace SymbolicAlgebra

/-- The state of reading. -/
structure Reader where
  /-- The length of the text in bytes. -/
  length : Nat
  /-- The tokens already read, the last one first. -/
  behind : List Token
  /-- The tokens still to be read. -/
  ahead : List Token
  /-- The variables met so far. -/
  vars : VarSet
  deriving DecidableEq

namespace Reader

/-- One token more, after the tokens kept so far, the last one first: a closing bracket removes an
opening bracket that it directly follows. -/
def keep (kept : List Token) (t : Token) : List Token :=
  match t.kind, kept with
  | .closing, ⟨.opening, _⟩ :: earlier => earlier
  | _, _ => t :: kept

/-- The tokens without empty pairs of brackets, however deep. -/
def dropEmptyPairs (tokens : List Token) : List Token := (tokens.foldl keep []).reverse

/-- The tokens that are not layout. -/
def dropLayout (tokens : List Token) : List Token := tokens.filter fun t => t.kind != .layout

/-- A reader at the start of a text. -/
def ofChars (text : List Char) : Reader :=
  ⟨Text.bytes text, [], dropEmptyPairs (dropLayout (Token.scan text)), ∅⟩

/-- All tokens, read or not. -/
def tokens (r : Reader) : List Token := r.behind.reverse ++ r.ahead

/-- How many tokens have been read. -/
def position (r : Reader) : Nat := r.behind.length

/-- The empty span at the end of the text. -/
def endSpan (r : Reader) : Span := ⟨r.length, r.length⟩

/-- The next token, not read yet. -/
def current? (r : Reader) : Option Token := r.ahead.head?

/-- The token read last. -/
def previous? (r : Reader) : Option Token := r.behind.head?

/-- The kind of the next token. -/
def peek? (r : Reader) : Option TokenKind := r.current?.map Token.kind

/-- The span of the next token, or of the end of the text. -/
def span (r : Reader) : Span :=
  match r.current? with
  | some t => t.span
  | none => r.endSpan

end Reader

/-- How an action on a reader ends. -/
inductive Outcome (β : Type) where
  | done (value : β) (reader : Reader)
  | failed (fault : Fault) (reader : Reader)
  /-- The fuel did not last. -/
  | spent
  deriving DecidableEq

/-- An action on a reader. -/
def Read (β : Type) : Type := Reader → Outcome β

namespace Read

variable {β γ : Type}

protected def pure (value : β) : Read β := fun r => .done value r

protected def bind (action : Read β) (next : β → Read γ) : Read γ := fun r =>
  match action r with
  | .done value r => next value r
  | .failed fault r => .failed fault r
  | .spent => .spent

instance : Monad Read where
  pure := Read.pure
  bind := Read.bind

/-- The action that fails. -/
def fail (fault : Fault) : Read β := fun r => .failed fault r

/-- The action that runs out of fuel. -/
def spent : Read β := fun _ => .spent

/-- The reader as it is. -/
def get : Read Reader := fun r => .done r r

/-- The fault of a cause at the next token. -/
def failHere (cause : Cause) : Read β := fun r => .failed (.on r.span cause) r

/-- Reads one token, whatever it is. -/
def next : Read Token := fun r =>
  match r.ahead with
  | t :: ahead => .done t { r with behind := t :: r.behind, ahead }
  | [] => .failed (.on r.span .unexpectedEnd) r

/-- Reads the next token if it is of the given kind, and says whether it was. -/
def eat (kind : TokenKind) : Read Bool := fun r =>
  match r.ahead with
  | t :: ahead =>
    if t.kind = kind then .done true { r with behind := t :: r.behind, ahead } else .done false r
  | [] => .done false r

/-- The fault of finding a token in the place of the expected kinds. One that starts an operand
means that an operator is missing. -/
def unexpected (expected : List TokenKind) (t : Token) : Fault :=
  if t.kind.startsOperand then .on t.span .missingOperator
  else if t.kind = .symbol then .on t.span (.invalidCharacter t.slice.toString)
  else .on t.span (.unexpectedToken expected t.kind)

/-- Reads a token of one of the given kinds. -/
def expect (expected : List TokenKind) : Read Token := fun r =>
  match r.ahead with
  | t :: _ => if t.kind ∈ expected then next r else .failed (unexpected expected t) r
  | [] => .failed (.on r.span .unexpectedEnd) r

/-- Remembers a variable. -/
def register (name : Char) : Read Unit := fun r => .done () { r with vars := r.vars.insert name }

end Read

end SymbolicAlgebra
