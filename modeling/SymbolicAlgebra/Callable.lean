import SymbolicAlgebra.Expr.Order

/-! # Callable functions

The functions that typed text can apply by name, the number of arguments each accepts, and the
expression that an application stands for. Some are abbreviations: a square root is a power, a
logarithm without a base has base ten. -/

namespace SymbolicAlgebra

/-- The numbers of arguments that a function accepts. -/
inductive Arity where
  | exactly (n : Nat)
  | atLeastOne
  deriving DecidableEq, Repr

namespace Arity

def accepts : Arity → Nat → Bool
  | exactly n, count => count == n
  | atLeastOne, count => 1 ≤ count

/-- The accepted numbers in words. -/
def describe : Arity → String
  | exactly n => "exactly " ++ toString n
  | atLeastOne => "at least 1"

end Arity

/-- A function that has a name in typed text. -/
inductive Callable where
  | trig (kind : Trig)
  | bracket (kind : Bracket)
  | sqrt
  | exp
  | ln
  | log
  | sign
  | min
  | max
  | mod
  deriving DecidableEq, Repr

namespace Callable

def all : List Callable :=
  Trig.all.map trig ++ Bracket.all.map bracket ++ [sqrt, exp, ln, log, sign, min, max, mod]

def name : Callable → String
  | trig kind => kind.name
  | bracket kind => kind.name
  | sqrt => "sqrt"
  | exp => "exp"
  | ln => "ln"
  | log => "log"
  | sign => "sign"
  | min => "min"
  | max => "max"
  | mod => "mod"

/-- The function of a name. -/
def ofName? (name : List Char) : Option Callable := all.find? fun f => f.name.toList == name

/-- The function whose name a text starts with. No name starts with another one, so there is at
most one. -/
def ofPrefix? (text : List Char) : Option Callable :=
  all.find? fun f => f.name.toList.isPrefixOf text

def arity : Callable → Arity
  | mod => .exactly 2
  | min => .atLeastOne
  | max => .atLeastOne
  | _ => .exactly 1

variable {α : Type} [Scalar α]

/-- The function applied to the arguments, if it accepts that many. The minimum and the maximum of
one argument are that argument. -/
def applied? : Callable → List (Expr α) → Option (Expr α)
  | min, [a] => some a
  | max, [a] => some a
  | min, a :: as => some (Expr.minOf (a :: as))
  | max, a :: as => some (Expr.maxOf (a :: as))
  | mod, [a, b] => some (.mod a b)
  | trig kind, [a] => some (.trig kind a)
  | bracket kind, [a] => some (.bracket kind a)
  | sqrt, [a] => some a.sqrt
  | exp, [a] => some a.exp
  | ln, [a] => some a.ln
  | log, [a] => some (.log (.const Scalar.ten) a)
  | sign, [a] => some (.sign a)
  | _, _ => none

/-- **An application succeeds for the accepted numbers of arguments.** -/
theorem isSome_applied? (f : Callable) (args : List (Expr α)) :
    (f.applied? args).isSome = f.arity.accepts args.length := by
  rcases args with _ | ⟨a, _ | ⟨b, _ | ⟨c, args⟩⟩⟩ <;> cases f <;>
    simp [applied?, arity, Arity.accepts]

end Callable

end SymbolicAlgebra
