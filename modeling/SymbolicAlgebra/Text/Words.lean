import SymbolicAlgebra.Text.Blank
import SymbolicAlgebra.Text.Slice

/-! # Words, pieces and lines

How a line falls into words and pieces, each a slice that knows its place, and how a text falls
into lines. -/

namespace SymbolicAlgebra

namespace Slice

open Text (isBlank)

/-- The slice without blanks at either end. -/
def trim (s : Slice) : Slice := (s.dropWhile isBlank).dropEndWhile isBlank

/-- The first word and what follows it. -/
def word? (s : Slice) : Option (Slice × Slice) :=
  let rest := s.dropWhile isBlank
  if rest.text.isEmpty then none
  else some (rest.takeWhile fun c => !isBlank c, rest.dropWhile fun c => !isBlank c)

/-- The pieces between separators, given the place of the current piece and its characters so far,
the last one first. -/
def piecesFrom (separator : Char) (start : Nat) (seen : List Char) : List Char → List Slice
  | [] => [⟨start, seen.reverse⟩]
  | c :: cs =>
    if c = separator then
      ⟨start, seen.reverse⟩ ::
        piecesFrom separator (start + Text.bytes seen + separator.utf8Size) [] cs
    else piecesFrom separator start (c :: seen) cs

/-- The pieces between separators; there is one more piece than separators. -/
def pieces (separator : Char) (s : Slice) : List Slice := piecesFrom separator s.start [] s.text

/-- The parts before and after the first separator. -/
def splitOnce? (separator : Char) (s : Slice) : Option (Slice × Slice) :=
  let before := s.takeWhile (· != separator)
  let rest := s.dropWhile (· != separator)
  if rest.text.isEmpty then none else some (before, rest.drop 1)

end Slice

namespace Text

/-- The number of characters before the first occurrence of a word. -/
def indexOf? (word : List Char) : List Char → Option Nat
  | [] => if word.isEmpty then some 0 else none
  | c :: cs => if word.isPrefixOf (c :: cs) then some 0 else (indexOf? word cs).map (· + 1)

/-- A finished line, given with its last character first: a carriage return at its end belongs to
the line break. -/
def finishLine : List Char → List Char
  | '\r' :: seen => seen.reverse
  | seen => seen.reverse

/-- The lines of a text, given the characters of the current one, the last one first. -/
def linesFrom (seen : List Char) : List Char → List (List Char)
  | [] => if seen.isEmpty then [] else [seen.reverse]
  | c :: cs => if c = '\n' then finishLine seen :: linesFrom [] cs else linesFrom (c :: seen) cs

/-- The lines of a text, without their line breaks. -/
def lines (text : List Char) : List (List Char) := linesFrom [] text

end Text

end SymbolicAlgebra
