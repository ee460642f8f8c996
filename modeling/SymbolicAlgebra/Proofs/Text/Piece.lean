import Mathlib.Data.List.Basic
import Mathlib.Data.String.Basic
import SymbolicAlgebra.Text.Words

/-! # Pieces of a text

A text, its lengths and its places are those of its UTF-8 encoding. A span lies *inside* a text if
its ends are boundaries of characters of the text, in order. It then *covers* one part of the text,
and moving the span along with the text keeps the part that it covers. A slice is a *piece* of a
text if it stands in the text at its own place; whatever is cut off a piece is a piece again. -/

namespace SymbolicAlgebra

namespace Text

/-- **The length of a text is that of its encoding.** -/
theorem bytes_eq (text : List Char) : bytes text = (String.ofList text).utf8ByteSize := by
  rw [String.utf8ByteSize_ofList]
  induction text with
  | nil => rfl
  | cons c cs ih => rw [bytes_cons, ih, String.utf8Len_cons, Nat.add_comm]

/-- The bytes of a text between the places of a span. -/
def bytesAt (text : List Char) (s : Span) : ByteArray :=
  (String.ofList text).toByteArray.extract s.start s.stop

theorem size_toByteArray (text : List Char) :
    (String.ofList text).toByteArray.size = bytes text :=
  (bytes_eq text).symm

/-- The place after the first characters of a text is a boundary. -/
theorem isValid_bytes (before after : List Char) :
    (⟨bytes before⟩ : String.Pos.Raw).IsValid (String.ofList (before ++ after)) := by
  refine String.Pos.Raw.isValid_iff_exists_append.mpr
    ⟨String.ofList before, String.ofList after, String.ofList_append, ?_⟩
  rw [bytes_eq]
  rfl

/-- **The span covers the part** of the text. -/
def Covers (text : List Char) (s : Span) (part : List Char) : Prop :=
  ∃ before after, text = before ++ part ++ after ∧ s = ⟨bytes before, bytes before + bytes part⟩

end Text

/-- **The span lies inside the text**: its ends are boundaries of characters, in order. -/
structure Span.Inside (text : List Char) (s : Span) : Prop where
  start_le_stop : s.start ≤ s.stop
  stop_le : s.stop ≤ (String.ofList text).utf8ByteSize
  isValid_start : (⟨s.start⟩ : String.Pos.Raw).IsValid (String.ofList text)
  isValid_stop : (⟨s.stop⟩ : String.Pos.Raw).IsValid (String.ofList text)

/-- **The slice stands in the text** at its own place. -/
def Slice.PieceOf (text : List Char) (s : Slice) : Prop := Text.Covers text s.span s.text

namespace Text

variable {text part : List Char} {s : Span}

theorem Covers.inside (h : Covers text s part) : s.Inside text := by
  obtain ⟨before, after, rfl, rfl⟩ := h
  have hstop := isValid_bytes (before ++ part) after
  rw [bytes_append] at hstop
  constructor
  · exact Nat.le_add_right _ _
  · rw [← bytes_eq, bytes_append, bytes_append]
    exact Nat.le_add_right _ _
  · rw [List.append_assoc]
    exact isValid_bytes before (part ++ after)
  · exact hstop

/-- A boundary comes after some characters of the text. -/
theorem exists_take {n : Nat} (h : (⟨n⟩ : String.Pos.Raw).IsValid (String.ofList text)) :
    ∃ i, n = bytes (text.take i) := by
  obtain ⟨i, hi⟩ := String.Pos.Raw.isValid_ofList.mp h
  exact ⟨i, hi.trans (bytes_eq _).symm⟩

theorem take_eq_append {i j : Nat} (h : i ≤ j) (cs : List Char) :
    cs.take j = cs.take i ++ (cs.take j).drop i := by
  conv_lhs => rw [← List.take_append_drop i (cs.take j), List.take_take, Nat.min_eq_left h]

/-- **A span inside a text covers a part of it.** -/
theorem exists_covers (h : s.Inside text) : ∃ part, Covers text s part := by
  obtain ⟨i, hi⟩ := exists_take h.isValid_start
  obtain ⟨j, hj⟩ := exists_take h.isValid_stop
  rcases Nat.le_total i j with hij | hji
  · have hsplit := take_eq_append hij text
    refine ⟨(text.take j).drop i, text.take i, text.drop j, ?_, ?_⟩
    · rw [← hsplit, List.take_append_drop]
    · rw [← bytes_append, ← hsplit, ← hi, ← hj]
  · have hle : s.stop ≤ s.start := by
      rw [hi, hj, take_eq_append hji text, bytes_append]
      exact Nat.le_add_right _ _
    have hstop : s.stop = s.start := Nat.le_antisymm hle h.start_le_stop
    refine ⟨[], text.take i, text.drop i, ?_, ?_⟩
    · rw [List.append_nil, List.take_append_drop]
    · rw [bytes_nil, Nat.add_zero, ← hi]
      exact congrArg (Span.mk s.start) hstop

/-- The bytes at a span are those of the part that it covers. -/
theorem Covers.bytesAt_eq (h : Covers text s part) :
    bytesAt text s = (String.ofList part).toByteArray := by
  obtain ⟨before, after, rfl, rfl⟩ := h
  have hbefore : (String.ofList before).toByteArray.extract (bytes before)
      (bytes before + bytes part) = ByteArray.empty := by
    rw [ByteArray.extract_eq_empty_iff, size_toByteArray]
    exact Nat.min_le_right _ _
  rw [bytesAt, List.append_assoc, String.ofList_append, String.ofList_append,
    String.toByteArray_append, String.toByteArray_append, ByteArray.extract_append, hbefore,
    ByteArray.empty_append, size_toByteArray, Nat.sub_self, Nat.add_sub_cancel_left,
    ByteArray.extract_append_eq_left (size_toByteArray part).symm]

/-- A span of a piece covers the same part of the whole text once it is moved along. -/
theorem Covers.shift {piece : Slice} (hpiece : piece.PieceOf text)
    (h : Covers piece.text s part) : Covers text (s.shift piece.start) part := by
  obtain ⟨before, after, htext, hspan⟩ := hpiece
  obtain ⟨inner, outer, heq, rfl⟩ := h
  have hstart : piece.start = bytes before := congrArg Span.start hspan
  refine ⟨before ++ inner, outer ++ after, ?_, ?_⟩
  · rw [htext, heq]
    simp only [List.append_assoc]
  · rw [Span.shift, hstart, bytes_append, Nat.add_comm (bytes inner), Nat.add_right_comm,
      Nat.add_comm (bytes inner)]

end Text

/-! ### Spans inside -/

namespace Span.Inside

variable {text : List Char} {s : Span}

/-- **Moving along**: a span inside a piece of a text is inside the piece's place in the text, and
the same bytes stand there. -/
theorem shift {piece : Slice} (hpiece : piece.PieceOf text) (h : s.Inside piece.text) :
    (s.shift piece.start).Inside text ∧ piece.start ≤ (s.shift piece.start).start ∧
      (s.shift piece.start).stop ≤ piece.start + Text.bytes piece.text ∧
      Text.bytesAt text (s.shift piece.start) = Text.bytesAt piece.text s := by
  obtain ⟨part, hpart⟩ := Text.exists_covers h
  have hshift := hpart.shift hpiece
  refine ⟨hshift.inside, Nat.le_add_left _ _, ?_, ?_⟩
  · have hstop := h.stop_le
    rw [← Text.bytes_eq] at hstop
    rw [Nat.add_comm]
    exact Nat.add_le_add_right hstop piece.start
  · rw [hshift.bytesAt_eq, hpart.bytesAt_eq]

/-- The whole text. -/
theorem whole (text : List Char) : (⟨0, Text.bytes text⟩ : Span).Inside text := by
  have hcovers : Text.Covers text ⟨0, Text.bytes text⟩ text :=
    ⟨[], [], by simp, by rw [Text.bytes_nil, Nat.zero_add]⟩
  exact hcovers.inside

/-- The end of the text. -/
theorem atEnd (text : List Char) :
    (⟨Text.bytes text, Text.bytes text⟩ : Span).Inside text := by
  have hcovers : Text.Covers text ⟨Text.bytes text, Text.bytes text⟩ [] :=
    ⟨text, [], by simp, rfl⟩
  exact hcovers.inside

/-- From the start of one span to the end of a later one. -/
theorem hull {s' : Span} (h : s.Inside text) (h' : s'.Inside text) (hle : s.start ≤ s'.stop) :
    (⟨s.start, s'.stop⟩ : Span).Inside text :=
  ⟨hle, h'.stop_le, h.isValid_start, h'.isValid_stop⟩

end Span.Inside

/-! ### Slices -/

namespace Slice.PieceOf

variable {text : List Char} {s : Slice}

theorem inside (h : s.PieceOf text) : s.span.Inside text := Text.Covers.inside h

/-- The whole text is a piece of itself. -/
theorem self (text : List Char) : (⟨0, text⟩ : Slice).PieceOf text := by
  refine ⟨[], [], by simp, ?_⟩
  rw [Text.bytes_nil]
  rfl

/-- What stands between two parts of a piece is a piece. -/
theorem of_append (h : s.PieceOf text) {before part after : List Char}
    (heq : s.text = before ++ part ++ after) :
    (⟨s.start + Text.bytes before, part⟩ : Slice).PieceOf text := by
  obtain ⟨front, back, htext, hspan⟩ := h
  have hstart : s.start = Text.bytes front := congrArg Span.start hspan
  refine ⟨front ++ before, after ++ back, ?_, ?_⟩
  · rw [htext, heq]
    simp only [List.append_assoc]
  · rw [Text.bytes_append, ← hstart]
    rfl

/-- What a piece starts with is a piece. -/
theorem front (h : s.PieceOf text) {part after : List Char} (heq : s.text = part ++ after) :
    (⟨s.start, part⟩ : Slice).PieceOf text :=
  h.of_append (show s.text = [] ++ part ++ after from heq)

/-- What a piece ends with is a piece. -/
theorem back (h : s.PieceOf text) {before part : List Char} (heq : s.text = before ++ part) :
    (⟨s.start + Text.bytes before, part⟩ : Slice).PieceOf text :=
  h.of_append (show s.text = before ++ part ++ [] by rw [List.append_nil, heq])

/-- The span of what a piece ends with, counted from its end. -/
theorem inside_back (h : s.PieceOf text) {before part : List Char} (heq : s.text = before ++ part) :
    (⟨s.stop - Text.bytes part, s.stop⟩ : Span).Inside text := by
  have hstop : s.stop = s.start + Text.bytes before + Text.bytes part := by
    rw [stop, heq, Text.bytes_append, Nat.add_assoc]
  rw [hstop, Nat.add_sub_cancel]
  exact (h.back heq).inside

theorem take (h : s.PieceOf text) (n : Nat) : (s.take n).PieceOf text :=
  h.front (List.take_append_drop n s.text).symm

theorem drop (h : s.PieceOf text) (n : Nat) : (s.drop n).PieceOf text :=
  h.back (List.take_append_drop n s.text).symm

theorem takeWhile (h : s.PieceOf text) (p : Char → Bool) : (s.takeWhile p).PieceOf text :=
  h.front List.takeWhile_append_dropWhile.symm

theorem dropWhile (h : s.PieceOf text) (p : Char → Bool) : (s.dropWhile p).PieceOf text :=
  h.back List.takeWhile_append_dropWhile.symm

theorem dropEndWhile (h : s.PieceOf text) (p : Char → Bool) : (s.dropEndWhile p).PieceOf text := by
  have heq : s.text = (s.text.reverse.dropWhile p).reverse ++
      (s.text.reverse.takeWhile p).reverse := by
    rw [← List.reverse_append, List.takeWhile_append_dropWhile, List.reverse_reverse]
  exact h.front heq

theorem trim (h : s.PieceOf text) : s.trim.PieceOf text :=
  (h.dropWhile Text.isBlank).dropEndWhile Text.isBlank

theorem word? (h : s.PieceOf text) {word rest : Slice} (hword : s.word? = some (word, rest)) :
    word.PieceOf text ∧ rest.PieceOf text := by
  simp only [Slice.word?] at hword
  split_ifs at hword
  cases hword
  have hdrop := h.dropWhile Text.isBlank
  exact ⟨hdrop.takeWhile _, hdrop.dropWhile _⟩

/-- **The pieces between separators are pieces.** The invariant of the loop: what has been seen
since the last separator and what is still to come stand in the text one after the other. -/
theorem piecesFrom {separator : Char} : ∀ {cs seen : List Char} {start : Nat},
    (⟨start, seen.reverse ++ cs⟩ : Slice).PieceOf text →
      ∀ p ∈ Slice.piecesFrom separator start seen cs, p.PieceOf text
  | [], seen, start, h => by
    rw [List.append_nil] at h
    exact List.forall_mem_singleton.mpr h
  | c :: cs, seen, start, h => by
    unfold Slice.piecesFrom
    split_ifs with hc
    · subst hc
      refine List.forall_mem_cons.mpr ⟨?_, piecesFrom ?_⟩
      · exact h.front rfl
      · have hrest := h.back (show _ = (seen.reverse ++ [c]) ++ cs by simp)
        rw [Text.bytes_append, Text.bytes_reverse, Text.bytes_cons, Text.bytes_nil, Nat.add_zero,
          ← Nat.add_assoc] at hrest
        exact hrest
    · refine piecesFrom ?_
      rwa [List.reverse_cons, List.append_assoc, List.singleton_append]

theorem pieces (h : s.PieceOf text) (separator : Char) :
    ∀ p ∈ s.pieces separator, p.PieceOf text :=
  piecesFrom h

end Slice.PieceOf

end SymbolicAlgebra
