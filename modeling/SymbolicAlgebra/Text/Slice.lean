/-! # Slices

A slice is a piece of a text together with the place where it starts. Places are counted in the
bytes of UTF-8, and a span is the pair of places around a piece. -/

namespace SymbolicAlgebra

/-- The places where a piece of text starts and stops. -/
structure Span where
  start : Nat
  stop : Nat
  deriving DecidableEq, Repr

/-- The span moved to the right. -/
def Span.shift (offset : Nat) (s : Span) : Span := ⟨s.start + offset, s.stop + offset⟩

/-- The length of a text in UTF-8. -/
def Text.bytes : List Char → Nat
  | [] => 0
  | c :: cs => c.utf8Size + bytes cs

namespace Text

@[simp] theorem bytes_nil : bytes [] = 0 := rfl

@[simp] theorem bytes_cons (c : Char) (cs : List Char) :
    bytes (c :: cs) = c.utf8Size + bytes cs := rfl

@[simp] theorem bytes_append (cs ds : List Char) : bytes (cs ++ ds) = bytes cs + bytes ds := by
  induction cs with
  | nil => simp
  | cons c cs ih => simp [ih, Nat.add_assoc]

@[simp] theorem bytes_reverse (cs : List Char) : bytes cs.reverse = bytes cs := by
  induction cs with
  | nil => rfl
  | cons c cs ih => simp [ih, Nat.add_comm]

end Text

/-- A piece of a text and the place where it starts. -/
structure Slice where
  start : Nat
  text : List Char
  deriving DecidableEq, Repr

namespace Slice

/-- The place after the last character. -/
def stop (s : Slice) : Nat := s.start + Text.bytes s.text

def span (s : Slice) : Span := ⟨s.start, s.stop⟩

/-- A whole text as a slice of itself. -/
def ofString (text : String) : Slice := ⟨0, text.toList⟩

def toString (s : Slice) : String := String.ofList s.text

/-- The first `n` characters. -/
def take (n : Nat) (s : Slice) : Slice := ⟨s.start, s.text.take n⟩

/-- What follows the first `n` characters. -/
def drop (n : Nat) (s : Slice) : Slice := ⟨s.start + Text.bytes (s.text.take n), s.text.drop n⟩

/-- The longest start whose characters all satisfy `p`. -/
def takeWhile (p : Char → Bool) (s : Slice) : Slice := ⟨s.start, s.text.takeWhile p⟩

/-- What follows the longest start whose characters all satisfy `p`. -/
def dropWhile (p : Char → Bool) (s : Slice) : Slice :=
  ⟨s.start + Text.bytes (s.text.takeWhile p), s.text.dropWhile p⟩

/-- The slice without the longest end whose characters all satisfy `p`. -/
def dropEndWhile (p : Char → Bool) (s : Slice) : Slice :=
  ⟨s.start, (s.text.reverse.dropWhile p).reverse⟩

end Slice

end SymbolicAlgebra
