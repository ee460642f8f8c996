import SymbolicAlgebra.Reader.Check
import SymbolicAlgebra.Reader.Grammar

/-! # Parsing

What a reader can be asked for: parts of an expression from where it stands, or one expression that
takes up all the rest. -/

namespace SymbolicAlgebra

variable {α : Type} [Scalar α] [Numeral α]

namespace Reader

/-- Fuel for reading on from here. -/
def fuel (r : Reader) : Nat := 10 * (r.ahead.length + 1)

/-- The result of an action and the reader after it. -/
def perform {β : Type} (action : Read β) (r : Reader) : Except Fault β × Reader :=
  match action r with
  | .done value r' => (.ok value, r')
  | .failed fault r' => (.error fault, r')
  | .spent => (.error (.on r.span .unexpectedEnd), r)

/-- Reads a sum. -/
def sum (r : Reader) : Except Fault (Expr α) × Reader := r.perform (Read.sum r.fuel)

/-- Reads a number, a name with its operand, or a group. -/
def atom (r : Reader) : Except Fault (Expr α) × Reader := r.perform (Read.atom r.fuel)

/-- Reads the rest of a group after its opening bracket. -/
def group (r : Reader) : Except Fault (Expr α) × Reader := r.perform (Read.group r.fuel)

/-- Reads the arguments of a call. -/
def args (r : Reader) : Except Fault (List (Expr α)) × Reader := r.perform (Read.args r.fuel)

/-- Reads a sum and expects no token after it. -/
def toEnd (fuel : Nat) : Read (Expr α) := do
  let e ← Read.sum fuel
  match (← Read.get).peek? with
  | none => pure e
  | some kind => Read.failHere (if kind.startsOperand then .missingOperator else .expectedEnd)

/-- Checks all tokens, then reads an expression that takes up all that is ahead. -/
def full (r : Reader) : Except Fault (Expr α) × Reader :=
  match fault? r.length r.tokens with
  | some fault => (.error fault, r)
  | none => r.perform (toEnd r.fuel)

end Reader

namespace Expr

/-- The expression that a text spells and the variables met while reading it. -/
def parseChars (text : List Char) : Except Fault (Expr α × VarSet) :=
  match (Reader.ofChars text).full with
  | (.ok e, r) => .ok (e, r.vars)
  | (.error fault, _) => .error fault

/-- The expression that a text spells and the variables met while reading it. -/
def parse (text : String) : Except Fault (Expr α × VarSet) := parseChars text.toList

/-- The expression that a text spells, and the set with the variables met while reading it. The set
stays as it is if the text spells none. -/
def parseWith (vars : VarSet) (text : String) : Except Fault (Expr α) × VarSet :=
  match parse text with
  | .ok (e, found) => (.ok e, vars.union found)
  | .error fault => (.error fault, vars)

/-- What is in the set after parsing into it was there before or met while reading. -/
theorem mem_parseWith {vars : VarSet} {text : String} {c : Char} :
    c ∈ (parseWith (α := α) vars text).2 ↔
      c ∈ vars ∨ ∃ read, parse (α := α) text = .ok read ∧ c ∈ read.2 := by
  unfold parseWith
  rcases parse (α := α) text with fault | read <;> simp

end Expr

end SymbolicAlgebra
