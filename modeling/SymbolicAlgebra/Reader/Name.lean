import SymbolicAlgebra.Constant
import SymbolicAlgebra.Fault
import SymbolicAlgebra.Text.EditDistance

/-! # Names

A name is a run of letters. It may be a constant, a variable of one letter or a function, or
functions glued in front of one of these: `sinsinx` is the sine of the sine of `x`. No function
name starts with another one, so a name has at most one such reading, and stripping function names
from the front finds it. -/

namespace SymbolicAlgebra

/-- What is left of a name after the functions in front of it. -/
inductive NameTail where
  | constant (c : Constant)
  | variable (name : Char)
  | function (f : Callable)
  | unknown
  deriving DecidableEq, Repr

/-- A name taken apart: the functions in front, the outermost first, and the tail with its text. -/
structure NameParts where
  front : List Callable
  tail : NameTail
  text : List Char
  deriving DecidableEq, Repr

namespace NameParts

/-- A name that is one thing as a whole. Constants go before variables, so `e` is a number. -/
def whole? (name : List Char) : Option NameTail :=
  match Constant.ofName? name with
  | some c => some (.constant c)
  | none =>
    match name with
    | [c] => some (.variable c)
    | name => (Callable.ofName? name).map .function

/-- The parts of a name, with at most `fuel` functions in front. -/
def split : Nat → List Char → NameParts
  | 0, name => ⟨[], (whole? name).getD .unknown, name⟩
  | fuel + 1, name =>
    match whole? name, Callable.ofPrefix? name with
    | some tail, _ => ⟨[], tail, name⟩
    | none, none => ⟨[], .unknown, name⟩
    | none, some f =>
      let rest := split fuel (name.drop f.name.length)
      { rest with front := f :: rest.front }

/-- The parts of a name. A function name takes at least one character, so the length of the name
is enough fuel. -/
def ofName (name : List Char) : NameParts := split name.length name

end NameParts

/-- The names that typed text may use. -/
def knownNames : List String := Callable.all.map Callable.name ++ Constant.all.map Constant.name

/-- Whether a suggestion goes before another one: the closer one first, then by spelling. -/
def suggestedBefore (a b : Nat × String) : Bool :=
  a.1 < b.1 || (a.1 == b.1 && !(b.2.toList < a.2.toList))

/-- The known names within two edits of a name, the closest first. -/
def suggestions (name : List Char) : List String :=
  let candidates := knownNames.map fun known => (Text.editDistance name known.toList, known)
  (StableSort.sort suggestedBefore (candidates.filter fun c => c.1 ≤ 2)).map Prod.snd

end SymbolicAlgebra
