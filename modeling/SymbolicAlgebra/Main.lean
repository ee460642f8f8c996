import SymbolicAlgebra.Double.Instances
import SymbolicAlgebra.Session

/-! # Command line

Answers every line of a file, or of the standard input if no file is named. Answers go to the
standard output and the messages of faults to the standard error. There is no prompt and no log, and
reports are not drawn: of a fault only its message is written. -/

open SymbolicAlgebra

/-- Writes the answer to a line. -/
def report : Except (Stage × Fault) String → IO Unit
  | .ok output => IO.println output
  | .error (_, fault) => IO.eprintln ("Error: " ++ fault.cause.message)

def main (args : List String) : IO Unit := do
  let text ← try
      match args with
      | file :: _ => some <$> IO.FS.readFile file
      | [] => some <$> (← IO.getStdin).readToEnd
    catch error =>
      IO.eprintln ("could not read input: " ++ toString error)
      pure none
  for answer in Session.runAll Float (text.getD "") do
    report answer
