import SymbolicAlgebra.Expr.Basic
import SymbolicAlgebra.Fault

/-! # Evaluation

The number that an expression has when its variables have values. Arguments are evaluated from left
to right, and the first variable without a value is the fault. Division by zero and the like are no
faults: they give whatever the arithmetic gives. -/

namespace SymbolicAlgebra

/-- Values of variables, in ascending order of the variables, one for each. -/
structure Bindings (α : Type) where
  entries : List (Char × α)

namespace Bindings

variable {α : Type}

instance : EmptyCollection (Bindings α) := ⟨⟨[]⟩⟩

/-- The entries with one more; an entry of the same variable is replaced. -/
def put (name : Char) (value : α) : List (Char × α) → List (Char × α)
  | [] => [(name, value)]
  | (other, old) :: rest =>
    if name < other then (name, value) :: (other, old) :: rest
    else if name = other then (name, value) :: rest
    else (other, old) :: put name value rest

/-- The bindings with a variable bound anew. -/
def bind (b : Bindings α) (name : Char) (value : α) : Bindings α := ⟨put name value b.entries⟩

/-- The bindings of a list of which later ones replace earlier ones. -/
def ofList (entries : List (Char × α)) : Bindings α :=
  entries.foldl (fun b (name, value) => b.bind name value) ∅

/-- The value of a variable. -/
def get? (b : Bindings α) (name : Char) : Option α := b.entries.lookup name

end Bindings

namespace Expr

variable {α : Type} [Scalar α]

mutual

/-- The number that the expression has under the bindings. -/
def eval (b : Bindings α) : Expr α → Except Cause α
  | const value => .ok value
  | var name =>
    match b.get? name with
    | some value => .ok value
    | none => .error (.undefinedVariable name)
  | unary f a => do
    let x ← eval b a
    .ok (f.apply x)
  | binary f a c => do
    let x ← eval b a
    let y ← eval b c
    .ok (f.apply x y)
  | nary f as => do
    let xs ← evalList b as
    .ok (f.apply xs)

/-- The numbers that the expressions have under the bindings. -/
def evalList (b : Bindings α) : List (Expr α) → Except Cause (List α)
  | [] => .ok []
  | a :: as => do
    let x ← eval b a
    let xs ← evalList b as
    .ok (x :: xs)

end

end Expr

end SymbolicAlgebra
