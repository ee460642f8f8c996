import SymbolicAlgebra.Fault
import SymbolicAlgebra.Render.Style
import SymbolicAlgebra.Text.Letter
import SymbolicAlgebra.Text.Words

/-! # Commands

A line is an expression, or a command that starts with a colon and says what to do with the
expression after it:

* `:latex` and `:plain` write it in another style, `:vars` lists its variables,
* `:diff x` differentiates it by the variable named first,
* `:eval` evaluates it, with values of variables after the word `where`.

The expression of a command is a slice of the line, so its place is known. -/

namespace SymbolicAlgebra

/-- What to do with the expression of a line. -/
inductive Action (α : Type) where
  | render (style : Style)
  | differentiate (v : Char)
  | evaluate (bindings : List (Char × α))
  | vars

/-- A line taken apart. -/
structure Command (α : Type) where
  action : Action α
  expr : Slice

namespace Command

variable {α : Type}

/-- The expression in the rest of a line. If there is none, the fault is the missing expression,
shown at the given span. -/
def expression (usage : String) (span : Span) (rest : Slice) : Except Fault Slice :=
  let expr := rest.trim
  if expr.text.isEmpty then .error (.on span (.missingExpression usage)) else .ok expr

/-- A variable: a single letter. -/
def letter? : List Char → Option Char
  | [c] => if Text.isLetter c then some c else none
  | _ => none

/-- A command without arguments of its own. -/
def simple (action : Action α) (usage : String) (name rest : Slice) : Except Fault (Command α) := do
  let expr ← expression usage name.span rest
  .ok ⟨action, expr⟩

/-- A command to differentiate. -/
def differentiate (name rest : Slice) : Except Fault (Command α) := do
  let usage := ":diff <var> <expr>"
  match rest.word? with
  | none => .error (.on name.span (.missingExpression usage))
  | some (word, rest) =>
    match letter? word.text with
    | none => .error (.on word.span (.invalidVariable word.toString))
    | some v => do
      let expr ← expression usage word.span rest
      .ok ⟨.differentiate v, expr⟩

variable [Numeral α]

/-- The variable and the value of a binding. -/
def binding? (piece : Slice) : Option (Char × α) := do
  let (name, value) ← piece.splitOnce? '='
  let v ← letter? name.trim.text
  let x ← Numeral.read value.trim.text
  some (v, x)

/-- The bindings of a list of pieces. -/
def bindings : List Slice → Except Fault (List (Char × α))
  | [] => .ok []
  | piece :: rest =>
    match binding? piece with
    | none => .error (.on piece.span .invalidBinding)
    | some b => do
      let bs ← bindings rest
      .ok (b :: bs)

/-- The word between an expression and the values of its variables. -/
def separatorWord : List Char := "where".toList

/-- A command to evaluate. -/
def evaluate (name rest : Slice) : Except Fault (Command α) := do
  let usage := ":eval <expr> where x=1, y=2"
  let rest ← expression usage name.span rest
  match Text.indexOf? separatorWord rest.text with
  | none => .ok ⟨.evaluate [], rest⟩
  | some n => do
    let bs ← bindings ((rest.drop (n + separatorWord.length)).pieces ',')
    let expr := (rest.take n).dropEndWhile Text.isBlank
    if expr.text.isEmpty then .error (.on name.span (.missingExpression usage))
    else .ok ⟨.evaluate bs, expr⟩

/-- The command of a name, given the word it is written as and the rest of the line. -/
def named (name : String) (word rest : Slice) : Except Fault (Command α) :=
  match name with
  | "latex" => simple (.render .latex) ":latex <expr>" word rest
  | "plain" => simple (.render .plain) ":plain <expr>" word rest
  | "vars" => simple .vars ":vars <expr>" word rest
  | "diff" => differentiate word rest
  | "eval" => evaluate word rest
  | name => .error (.on word.span (.unknownCommand name))

/-- The command of a line. -/
def parseSlice (line : Slice) : Except Fault (Command α) :=
  match line.word? with
  | none => .error (.on line.span (.missingExpression "<expr>"))
  | some (word, rest) =>
    match word.text with
    | ':' :: name => named (String.ofList name) word rest
    | _ => simple (.render .annotated) "<expr>" word line

/-- The command of a line. -/
def parse (line : String) : Except Fault (Command α) := parseSlice (.ofString line)

end Command

end SymbolicAlgebra
