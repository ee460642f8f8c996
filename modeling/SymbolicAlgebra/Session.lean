import SymbolicAlgebra.Command
import SymbolicAlgebra.Equation

/-! # Sessions

A session answers lines one by one. Nothing is remembered between them. A fault tells the stage at
which it arose, and its spans count from the start of the line. -/

namespace SymbolicAlgebra

/-- The stages of answering a line. -/
inductive Stage where
  | command | reading | evaluation | differentiation
  deriving DecidableEq, Repr

namespace Session

variable {α : Type} [Scalar α] [Numeral α]

/-- A failed stage as the failure of the line. -/
def during {β : Type} (stage : Stage) : Except Fault β → Except (Stage × Fault) β
  | .ok value => .ok value
  | .error fault => .error (stage, fault)

/-- A cause that points at no part of the line. -/
def unplaced {β : Type} : Except Cause β → Except Fault β
  | .ok value => .ok value
  | .error cause => .error (.nowhere cause)

/-- A fault in an expression that starts at the given place of the line. -/
def shifted {β : Type} (offset : Nat) : Except Fault β → Except Fault β
  | .ok value => .ok value
  | .error fault => .error (fault.shift offset)

/-- The answer to an action on an equation. -/
def answer (eqn : Equation α) : Action α → Except (Stage × Fault) String
  | .render style => .ok (eqn.simplified.render style)
  | .differentiate v => do
    let d ← during .differentiation (unplaced (eqn.derivative v))
    .ok (d.render .annotated)
  | .evaluate bindings => do
    let value ← during .evaluation (unplaced (eqn.evaluate (.ofList bindings)))
    .ok (Numeral.text value)
  | .vars => .ok (Render.join ", " (eqn.simplified.vars.toList.map Char.toString))

variable (α) in
/-- The answer to a line. -/
def runSlice (line : Slice) : Except (Stage × Fault) String := do
  let command ← during .command (Command.parseSlice (α := α) line)
  let eqn ← during .reading (shifted command.expr.start (Equation.parseChars command.expr.text))
  answer eqn command.action

variable (α) in
/-- The answer to a line. -/
def run (line : String) : Except (Stage × Fault) String := runSlice α (.ofString line)

variable (α) in
/-- The answers to the lines of a text that are not blank. -/
def runAll (text : String) : List (Except (Stage × Fault) String) :=
  ((Text.lines text.toList).filter fun line => !line.all Text.isBlank).map fun line =>
    runSlice α ⟨0, line⟩

end Session

end SymbolicAlgebra
