import SymbolicAlgebra.Reader.Cursor
import SymbolicAlgebra.Reader.Name

/-! # Reading expressions

From the loosest to the tightest, an expression is a sum of products of quotients of powers of
atoms. Quotients and powers group to the right. A minus is read in front of the first term of a
sum, between terms, and once in front of a power; it always means a factor of minus one. Two
bracketed groups side by side are multiplied. An atom is a number, a name with the operand that it
needs, or a group.

Every function here takes fuel, and calls the others with less. No more than eight calls are nested
between two tokens, which is what `Reader.fuel` counts on. -/

namespace SymbolicAlgebra

variable {α : Type} [Scalar α] [Numeral α]

namespace Read

/-- The number that a token spells. -/
def number (t : Token) : Read (Expr α) :=
  match Numeral.read t.lexeme with
  | some value => pure (.const value)
  | none => fail (.on t.span (.invalidNumber t.slice.toString))

/-- A function applied to the arguments it was given at the span of the call. -/
def call (f : Callable) (args : List (Expr α)) (span : Span) : Read (Expr α) :=
  match f.applied? args with
  | some e => pure e
  | none => fail (.on span (.wrongArgumentCount f args.length))

/-- The functions glued in front of an operand, applied from the inside out. The first one starts
at the given place. -/
def applyFront (operand : Expr α) : Nat → List Callable → Read (Expr α)
  | _, [] => pure operand
  | start, f :: front => do
    let stop := start + f.name.length
    let inner ← applyFront operand stop front
    call f [inner] ⟨start, stop⟩

/-- Whether the reader stands between two bracketed groups. -/
def atImplicitProduct (r : Reader) : Bool :=
  r.peek? == some .opening && r.previous?.map Token.kind == some .closing

/-- The expressions as one: a single one is itself, more are combined. -/
def combine (build : List (Expr α) → Expr α) : List (Expr α) → Expr α
  | [e] => e
  | es => build es

mutual

/-- A sum. -/
def sum : Nat → Read (Expr α)
  | 0 => spent
  | fuel + 1 => do
    if ← eat .minus then
      let first ← product fuel
      terms fuel [first.neg]
    else
      let first ← product fuel
      terms fuel [first]

/-- The rest of a sum whose terms so far are given, the last one first. -/
def terms : Nat → List (Expr α) → Read (Expr α)
  | 0, _ => spent
  | fuel + 1, read => do
    if ← eat .plus then
      let term ← product fuel
      terms fuel (term :: read)
    else if ← eat .minus then
      let term ← product fuel
      terms fuel (term.neg :: read)
    else
      pure (combine Expr.sumOf read.reverse)

/-- A product. -/
def product : Nat → Read (Expr α)
  | 0 => spent
  | fuel + 1 => do
    let first ← quotient fuel
    factors fuel [first]

/-- The rest of a product whose factors so far are given, the last one first. -/
def factors : Nat → List (Expr α) → Read (Expr α)
  | 0, _ => spent
  | fuel + 1, read => do
    if (← eat .times) || atImplicitProduct (← get) then
      let factor ← quotient fuel
      factors fuel (factor :: read)
    else
      pure (combine Expr.productOf read.reverse)

/-- A quotient. -/
def quotient : Nat → Read (Expr α)
  | 0 => spent
  | fuel + 1 => do
    let num ← power fuel
    if ← eat .slash then
      let den ← quotient fuel
      pure (.fraction num den)
    else
      pure num

/-- A power, or minus a power. -/
def power : Nat → Read (Expr α)
  | 0 => spent
  | fuel + 1 => do
    if ← eat .minus then
      let e ← power fuel
      pure e.neg
    else
      let base ← atom fuel
      if ← eat .caret then
        let exponent ← power fuel
        pure (.power base exponent)
      else
        pure base

/-- A number, a name with its operand, or a group. -/
def atom : Nat → Read (Expr α)
  | 0 => spent
  | fuel + 1 => do
    let t ← next
    match t.kind with
    | .number => number t
    | .name => name fuel t
    | .opening => group fuel
    | _ => fail (unexpected [.number, .name, .opening, .minus] t)

/-- The rest of a group after its opening bracket. -/
def group : Nat → Read (Expr α)
  | 0 => spent
  | fuel + 1 => do
    let inner ← sum fuel
    let _ ← expect [.closing]
    pure inner

/-- The arguments of a call, in brackets and separated by commas. -/
def args : Nat → Read (List (Expr α))
  | 0 => spent
  | fuel + 1 => do
    let _ ← expect [.opening]
    let first ← sum fuel
    moreArgs fuel [first]

/-- The rest of the arguments when those so far are given, the last one first. -/
def moreArgs : Nat → List (Expr α) → Read (List (Expr α))
  | 0, _ => spent
  | fuel + 1, read => do
    let t ← expect [.comma, .closing]
    if t.kind = .closing then
      pure read.reverse
    else
      let arg ← sum fuel
      moreArgs fuel (arg :: read)

/-- What a name stands for, with the operand that it needs. -/
def name : Nat → Token → Read (Expr α)
  | 0, _ => spent
  | fuel + 1, t => do
    let parts := NameParts.ofName t.lexeme
    let tailSpan : Span := ⟨t.span.stop - Text.bytes parts.text, t.span.stop⟩
    match parts.tail with
    | .constant c => applyFront (.const c.value) t.span.start parts.front
    | .variable c =>
      register c
      applyFront (.var c) t.span.start parts.front
    | .function f =>
      let operand ← application fuel f tailSpan
      applyFront operand t.span.start parts.front
    | .unknown =>
      fail (.on tailSpan (.unknownName (String.ofList parts.text) (suggestions parts.text)))

/-- The application of a function whose name has just been read at the given span: a logarithm
with a base, a call with arguments in brackets, or a call with the operand that follows. -/
def application : Nat → Callable → Span → Read (Expr α)
  | 0, _, _ => spent
  | fuel + 1, f, span => do
    if f = .log then
      if ← eat .underscore then
        return ← logarithm fuel
    if (← get).peek? = some .opening then
      let given ← args fuel
      let stop := match (← get).previous? with
        | some t => t.span.stop
        | none => span.stop
      call f given ⟨span.start, stop⟩
    else
      let operand ← atom fuel
      call f [operand] span

/-- A logarithm after `log_`: its base, and its argument after a second underscore or in
brackets. -/
def logarithm : Nat → Read (Expr α)
  | 0 => spent
  | fuel + 1 => do
    let base ← atom fuel
    if ← eat .underscore then
      let arg ← atom fuel
      pure (.log base arg)
    else
      let _ ← expect [.underscore, .opening]
      let arg ← group fuel
      pure (.log base arg)

end

end Read

end SymbolicAlgebra
