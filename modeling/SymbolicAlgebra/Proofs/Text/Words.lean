import Mathlib.Data.List.DropRight
import SymbolicAlgebra.Proofs.Text.Piece
import SymbolicAlgebra.Text.Letter

/-! # Words of a text

Cutting a text into words and pieces, each cut said as how the text is put together: what is cut
off *stands* in the text after one part and before another. A cut is determined by what the parts
are made of, so each function here is described by an equivalence. -/

namespace SymbolicAlgebra

namespace Text

variable {text word before after blanks : List Char}

/-! ### Blanks, words, trimmed texts -/

/-- **Blanks only.** -/
def Blanks (text : List Char) : Prop := ∀ c ∈ text, isBlank c = true

/-- **A word**: no blanks, and not empty. -/
structure Word (text : List Char) : Prop where
  ne_nil : text ≠ []
  isBlank_eq_false : ∀ c ∈ text, isBlank c = false

/-- **A trimmed text**: no blank at either end, and not empty. -/
structure Trimmed (text : List Char) : Prop where
  ne_nil : text ≠ []
  head : ∀ c ∈ text.head?, isBlank c = false
  last : ∀ c ∈ text.getLast?, isBlank c = false

/-- **A break**: the end, or a blank. -/
def Breaks (text : List Char) : Prop := ∀ c ∈ text.head?, isBlank c = true

theorem Blanks.nil : Blanks [] := List.forall_mem_nil _

theorem Blanks.append (hbefore : Blanks before) (hafter : Blanks after) :
    Blanks (before ++ after) :=
  List.forall_mem_append.mpr ⟨hbefore, hafter⟩

theorem Word.of_all (hne : text ≠ []) (h : text.all (!isBlank ·) = true) : Word text :=
  ⟨hne, fun c hc => by simpa using List.all_eq_true.mp h c hc⟩

theorem Word.trimmed (h : Word text) : Trimmed text where
  ne_nil := h.ne_nil
  head c hc := h.isBlank_eq_false c (List.mem_of_mem_head? hc)
  last c hc := h.isBlank_eq_false c (List.mem_of_mem_getLast? hc)

theorem isBlank_of_isLetter {c : Char} (h : isLetter c = true) : isBlank c = false := by
  have hdisjoint : ∀ letters ∈ letterRanges, ∀ blanks ∈ blankRanges,
      letters.2 < blanks.1 ∨ blanks.2 < letters.1 := by decide +kernel
  obtain ⟨letters, hletters, hc⟩ := List.any_eq_true.mp h
  refine List.any_eq_false.mpr fun blanks hblanks hblank => ?_
  have hapart := hdisjoint letters hletters blanks hblanks
  simp only [Bool.and_eq_true, decide_eq_true_eq] at hc hblank
  omega

theorem head_dropWhile (p : Char → Bool) (text : List Char) :
    ∀ c ∈ (text.dropWhile p).head?, p c = false := by
  intro c hc
  have hhead := List.head?_dropWhile_not p text
  rwa [hc] at hhead

/-- The longest start that satisfies a condition, and the rest: the condition holds on the one and
fails at the head of the other. -/
theorem takeWhile_and_dropWhile_eq_iff {p : Char → Bool} :
    text.takeWhile p = before ∧ text.dropWhile p = after ↔
      text = before ++ after ∧ (∀ c ∈ before, p c = true) ∧ ∀ c ∈ after.head?, p c = false := by
  constructor
  · rintro ⟨rfl, rfl⟩
    exact ⟨List.takeWhile_append_dropWhile.symm, fun c => List.mem_takeWhile_imp,
      head_dropWhile p text⟩
  · rintro ⟨rfl, hbefore, hafter⟩
    rw [List.takeWhile_append_of_pos hbefore, List.dropWhile_append_of_pos hbefore]
    cases after with
    | nil => simp
    | cons c cs => simp [hafter c rfl]

/-- The rest after the longest end of blanks. -/
theorem rdropWhile_eq_iff (hafter : Trimmed after) :
    text.rdropWhile isBlank = after ↔ ∃ blanks, Blanks blanks ∧ text = after ++ blanks := by
  constructor
  · rintro rfl
    exact ⟨_, fun c => List.mem_rtakeWhile_imp, List.rdropWhile_append_rtakeWhile.symm⟩
  · rintro ⟨blanks, hblanks, rfl⟩
    induction blanks using List.reverseRecOn with
    | nil =>
      rw [List.append_nil, List.rdropWhile_eq_self_iff]
      exact fun hne => by simp [hafter.last _ (List.getLast?_eq_some_getLast hne)]
    | append_singleton blanks c ih =>
      obtain ⟨hblanks, hc⟩ := List.forall_mem_append.mp hblanks
      rw [← List.append_assoc, List.rdropWhile_concat_pos _ _ _ (hc c (List.mem_singleton_self c))]
      exact ih hblanks

/-- Without the blanks at its end, a text that does not start with a blank is trimmed. -/
theorem trimmed_rdropWhile (hne : text.rdropWhile isBlank ≠ [])
    (hhead : ∀ c ∈ text.head?, isBlank c = false) : Trimmed (text.rdropWhile isBlank) where
  ne_nil := hne
  head c hc := by
    obtain ⟨after, hafter⟩ := List.rdropWhile_prefix isBlank text
    refine hhead c ?_
    rwa [← hafter, List.head?_append_of_ne_nil _ hne]
  last c hc := by
    obtain ⟨_, rfl⟩ := List.mem_getLast?_eq_getLast hc
    exact Bool.eq_false_iff.mpr (List.rdropWhile_last_not isBlank text hne)

/-- What a trimmed text starts with, without the blanks at its end. -/
theorem Trimmed.of_append (h : Trimmed (before ++ after)) (hne : before.rdropWhile isBlank ≠ []) :
    Trimmed (before.rdropWhile isBlank) := by
  refine trimmed_rdropWhile hne ?_
  have hbefore : before ≠ [] := by
    rintro rfl
    exact hne rfl
  rw [← List.head?_append_of_ne_nil before hbefore]
  exact h.head

/-- A trimmed text with more behind it that does not end with a blank. -/
theorem Trimmed.append (h : Trimmed before) (hne : after ≠ [])
    (hlast : ∀ c ∈ after.getLast?, isBlank c = false) : Trimmed (before ++ after) where
  ne_nil := List.append_ne_nil_of_left_ne_nil h.ne_nil after
  head := by
    rw [List.head?_append_of_ne_nil _ h.ne_nil]
    exact h.head
  last := by
    rw [List.getLast?_append_of_ne_nil _ hne]
    exact hlast

/-! ### Occurrences of a word -/

/-- A word occurs in a text with blanks after it only where it occurs in the text. -/
theorem infix_append_blanks (hword : Word word) (hblanks : Blanks blanks) :
    word <:+: text ++ blanks ↔ word <:+: text := by
  induction blanks using List.reverseRecOn with
  | nil => rw [List.append_nil]
  | append_singleton blanks c ih =>
    obtain ⟨hblanks, hc⟩ := List.forall_mem_append.mp hblanks
    rw [← List.append_assoc, List.infix_concat_iff, ih hblanks, or_iff_right]
    rintro hsuffix
    rcases List.suffix_concat_iff.mp hsuffix with rfl | ⟨front, rfl, -⟩
    · exact hword.ne_nil rfl
    · have hnot := hword.isBlank_eq_false c (by simp)
      rw [hc c (List.mem_singleton_self c)] at hnot
      cases hnot

theorem indexOf?_eq_none_iff (hword : word ≠ []) : indexOf? word text = none ↔ ¬word <:+: text := by
  induction text with
  | nil => simp [indexOf?, hword]
  | cons c cs ih =>
    rw [indexOf?, List.infix_cons_iff, ← List.isPrefixOf_iff_prefix]
    split_ifs with hstarts <;> simp [hstarts, ih]

/-- If the first character of a word does not occur in it again, the word does not overlap itself:
before its first occurrence, it does not occur even in part. -/
theorem eq_nil_of_startsWith {c : Char} {cs : List Char} (hc : c ∉ cs)
    (hstarts : c :: cs <+: before ++ (c :: cs ++ after)) (hbefore : ¬c :: cs <:+: before) :
    before = [] := by
  obtain ⟨rest, hrest⟩ := hstarts
  rcases List.append_eq_append_iff.mp hrest with ⟨part, rfl, -⟩ | ⟨part, hpart, hafter⟩
  · exact absurd (List.prefix_append _ _).isInfix hbefore
  · cases before with
    | nil => rfl
    | cons d ds =>
      obtain ⟨rfl, rfl⟩ := List.cons.inj hpart
      cases part with
      | nil => exact absurd ⟨[], [], by simp⟩ hbefore
      | cons e es =>
        obtain ⟨rfl, -⟩ := List.cons.inj hafter
        exact absurd (by simp) hc

/-- **The first occurrence**: the word stands after text in which it does not occur. -/
theorem indexOf?_eq_some_iff {c : Char} {cs : List Char} (hc : c ∉ cs) {n : Nat} :
    indexOf? (c :: cs) text = some n ↔
      ∃ before after, text = before ++ (c :: cs ++ after) ∧ before.length = n ∧
        ¬c :: cs <:+: before := by
  induction text generalizing n with
  | nil => simp [indexOf?]
  | cons d ds ih =>
    rw [indexOf?]
    split_ifs with hstarts
    · rw [List.isPrefixOf_iff_prefix] at hstarts
      constructor
      · rintro ⟨⟩
        obtain ⟨after, hafter⟩ := hstarts
        exact ⟨[], after, hafter.symm, rfl, by simp⟩
      · rintro ⟨before, after, htext, rfl, hbefore⟩
        rw [htext] at hstarts
        rw [eq_nil_of_startsWith hc hstarts hbefore]
        rfl
    · rw [List.isPrefixOf_iff_prefix] at hstarts
      simp only [Option.map_eq_some_iff, ih]
      constructor
      · rintro ⟨-, ⟨before, after, rfl, rfl, hbefore⟩, rfl⟩
        refine ⟨d :: before, after, rfl, rfl, fun hinfix => ?_⟩
        rcases List.infix_cons_iff.mp hinfix with hd | hinfix
        · exact hstarts (hd.trans (List.prefix_append (d :: before) _))
        · exact hbefore hinfix
      · rintro ⟨before, after, htext, rfl, hbefore⟩
        cases before with
        | nil => exact absurd ⟨after, htext.symm⟩ hstarts
        | cons e es =>
          obtain ⟨rfl, rfl⟩ := List.cons.inj htext
          have hes : ¬c :: cs <:+: es := fun h => hbefore (h.trans (List.suffix_cons _ _).isInfix)
          exact ⟨_, ⟨es, after, rfl, rfl, hes⟩, rfl⟩

end Text

namespace Slice

open Text (Blanks Word Trimmed Breaks isBlank)

/-- **The part stands in the slice** after one text and before another. -/
structure Between (s : Slice) (before : List Char) (part : Slice) (after : List Char) : Prop where
  text : s.text = before ++ part.text ++ after
  start : part.start = s.start + Text.bytes before

namespace Between

variable {s part inner : Slice} {before after before' after' : List Char}

/-- A part of a part. -/
theorem trans (h : s.Between before part after) (h' : part.Between before' inner after') :
    s.Between (before ++ before') inner (after' ++ after) where
  text := by
    rw [h.text, h'.text]
    simp only [List.append_assoc]
  start := by rw [h'.start, h.start, Text.bytes_append, Nat.add_assoc]

theorem start_eq {line : List Char} (h : Between ⟨0, line⟩ before part after) :
    part.start = Text.bytes before := by
  rw [h.start, Nat.zero_add]

/-- What stands in a whole text is a piece of it. -/
theorem pieceOf {line : List Char} (h : Between ⟨0, line⟩ before part after) :
    part.PieceOf line := by
  have hpiece := (PieceOf.self line).of_append h.text
  rw [Nat.zero_add, ← h.start_eq] at hpiece
  exact hpiece

end Between

variable {s t word rest : Slice}

theorem between_takeWhile (p : Char → Bool) (s : Slice) :
    s.Between [] (s.takeWhile p) (s.dropWhile p).text :=
  ⟨List.takeWhile_append_dropWhile.symm, rfl⟩

theorem between_dropWhile (p : Char → Bool) (s : Slice) :
    s.Between (s.text.takeWhile p) (s.dropWhile p) [] where
  text := by
    rw [List.append_nil]
    exact List.takeWhile_append_dropWhile.symm
  start := rfl

/-- What a slice starts with, and what it ends with: the condition holds on the one and fails at the
head of the other. -/
theorem takeWhile_and_dropWhile_eq_iff {p : Char → Bool} :
    s.takeWhile p = word ∧ s.dropWhile p = rest ↔
      s.Between [] word rest.text ∧ rest.start = word.stop ∧ (∀ c ∈ word.text, p c = true) ∧
        ∀ c ∈ rest.text.head?, p c = false := by
  constructor
  · rintro ⟨rfl, rfl⟩
    obtain ⟨-, hword, hrest⟩ :=
      Text.takeWhile_and_dropWhile_eq_iff.mp ⟨rfl, (rfl : s.text.dropWhile p = _)⟩
    exact ⟨s.between_takeWhile p, rfl, hword, hrest⟩
  · rintro ⟨hs, hstart, hword, hrest⟩
    obtain ⟨htake, hdrop⟩ := Text.takeWhile_and_dropWhile_eq_iff.mpr ⟨hs.text, hword, hrest⟩
    have hword : s.takeWhile p = word := congrArg₂ Slice.mk hs.start.symm htake
    refine ⟨hword, congrArg₂ Slice.mk ?_ hdrop⟩
    rw [hstart, ← hword]
    rfl

/-- **Trimming** takes off the blanks around a trimmed text. -/
theorem trim_eq_iff (ht : Trimmed t.text) :
    s.trim = t ↔ ∃ before after, Blanks before ∧ Blanks after ∧ s.Between before t after := by
  constructor
  · rintro rfl
    obtain ⟨after, hafter, hrest⟩ := (Text.rdropWhile_eq_iff ht).mp rfl
    obtain ⟨hs, hbefore, -⟩ := Text.takeWhile_and_dropWhile_eq_iff.mp ⟨rfl, hrest⟩
    rw [← List.append_assoc] at hs
    exact ⟨_, after, hbefore, hafter, hs, rfl⟩
  · rintro ⟨before, after, hbefore, hafter, hs, hstart⟩
    rw [List.append_assoc] at hs
    have hhead : ∀ c ∈ (t.text ++ after).head?, isBlank c = false := by
      rw [List.head?_append_of_ne_nil _ ht.ne_nil]
      exact ht.head
    obtain ⟨htake, hdrop⟩ := Text.takeWhile_and_dropWhile_eq_iff.mpr ⟨hs, hbefore, hhead⟩
    have hlast := (Text.rdropWhile_eq_iff ht).mpr ⟨after, hafter, rfl⟩
    rw [← htake] at hstart
    rw [← hdrop] at hlast
    exact congrArg₂ Slice.mk hstart.symm hlast

theorem trimmed_trim (h : s.trim.text ≠ []) : Trimmed s.trim.text :=
  Text.trimmed_rdropWhile h (Text.head_dropWhile isBlank s.text)

/-- The text that trimming leaves, wherever it stands. -/
theorem text_trim_eq_iff {part : List Char} (hpart : Trimmed part) :
    s.trim.text = part ↔
      ∃ before after, Blanks before ∧ Blanks after ∧ s.text = before ++ part ++ after := by
  constructor
  · rintro rfl
    obtain ⟨before, after, hbefore, hafter, hs⟩ := (trim_eq_iff hpart).mp rfl
    exact ⟨before, after, hbefore, hafter, hs.text⟩
  · rintro ⟨before, after, hbefore, hafter, hs⟩
    let t : Slice := ⟨s.start + Text.bytes before, part⟩
    have htrim : s.trim = t := (trim_eq_iff hpart).mpr ⟨before, after, hbefore, hafter, hs, rfl⟩
    rw [htrim]

/-- **The first word** comes after blanks, and ends at a break. -/
theorem word?_eq_some_iff :
    s.word? = some (word, rest) ↔
      ∃ before, Blanks before ∧ s.Between before word rest.text ∧ rest.start = word.stop ∧
        Word word.text ∧ Breaks rest.text := by
  unfold Slice.word?
  constructor
  · intro h
    simp only at h
    split_ifs at h with hempty
    have hsplit := Prod.mk.inj (Option.some.inj h)
    obtain ⟨hfirst, hstart, hword, hrest⟩ := takeWhile_and_dropWhile_eq_iff.mp hsplit
    have hs := (s.between_dropWhile isBlank).trans hfirst
    rw [List.append_nil, List.append_nil] at hs
    have hrest : Breaks rest.text := fun c hc => by simpa using hrest c hc
    refine ⟨_, fun c => List.mem_takeWhile_imp, hs, hstart, ⟨fun hnil => ?_, ?_⟩, hrest⟩
    · have htext : (s.dropWhile isBlank).text = rest.text := by rw [hfirst.text, hnil]; rfl
      obtain ⟨c, cs, hcons⟩ := List.exists_cons_of_ne_nil (by simpa using hempty)
      have hblank := hrest c (by rw [← htext, hcons]; rfl)
      have hnot := Text.head_dropWhile isBlank s.text c (congrArg List.head? hcons)
      rw [hblank] at hnot
      cases hnot
    · exact fun c hc => by simpa using hword c hc
  · rintro ⟨before, hbefore, hs, hstart, hword, hrest⟩
    let first : Slice := ⟨word.start, word.text ++ rest.text⟩
    have hhead : ∀ c ∈ first.text.head?, isBlank c = false := by
      rw [List.head?_append_of_ne_nil _ hword.ne_nil]
      exact hword.trimmed.head
    obtain ⟨-, hfirst⟩ : s.takeWhile isBlank = ⟨s.start, before⟩ ∧ s.dropWhile isBlank = first :=
      takeWhile_and_dropWhile_eq_iff.mpr
        ⟨⟨by rw [hs.text, List.append_assoc]; rfl, rfl⟩, hs.start, hbefore, hhead⟩
    have hsplit : first.takeWhile (!isBlank ·) = word ∧ first.dropWhile (!isBlank ·) = rest :=
      takeWhile_and_dropWhile_eq_iff.mpr ⟨⟨rfl, rfl⟩, hstart,
        fun c hc => by rw [hword.isBlank_eq_false c hc]; rfl, fun c hc => by rw [hrest c hc]; rfl⟩
    have hne : first.text.isEmpty = false := by simp [first, hword.ne_nil]
    simp [hfirst, hne, hsplit]

/-- A trimmed text after blanks starts with the first word. -/
theorem exists_word? {before after : List Char} (ht : Trimmed t.text) (hbefore : Blanks before)
    (hs : s.Between before t after) :
    ∃ word rest, s.word? = some (word, rest) ∧ word.text.head? = t.text.head? := by
  let first : Slice := ⟨t.start, t.text ++ after⟩
  have hhead : first.text.head? = t.text.head? := List.head?_append_of_ne_nil _ ht.ne_nil
  have hfirst : s.takeWhile isBlank = ⟨s.start, before⟩ ∧ s.dropWhile isBlank = first :=
    takeWhile_and_dropWhile_eq_iff.mpr ⟨⟨by rw [hs.text, List.append_assoc]; rfl, rfl⟩, hs.start,
      hbefore, by rw [hhead]; exact ht.head⟩
  have hne : first.text.isEmpty = false := by simp [first, ht.ne_nil]
  refine ⟨first.takeWhile (!isBlank ·), first.dropWhile (!isBlank ·), ?_, ?_⟩
  · simp [word?, hfirst, hne]
  · obtain ⟨c, cs, hcons⟩ := List.exists_cons_of_ne_nil ht.ne_nil
    have hc : isBlank c = false := ht.head c (by rw [hcons]; rfl)
    simp [takeWhile, first, hcons, hc]

/-- **Splitting** at the first separator. -/
theorem splitOnce?_eq_some_iff {separator : Char} {before after : Slice} :
    s.splitOnce? separator = some (before, after) ↔
      s.Between [] before (separator :: after.text) ∧
        after.start = before.stop + separator.utf8Size ∧ separator ∉ before.text := by
  unfold Slice.splitOnce?
  constructor
  · intro h
    simp only at h
    split_ifs at h with hempty
    obtain ⟨hbefore, rfl⟩ := Prod.mk.inj (Option.some.inj h)
    obtain ⟨hs, hstart, hnot, hhead⟩ := takeWhile_and_dropWhile_eq_iff.mp ⟨hbefore, rfl⟩
    obtain ⟨c, cs, hcons⟩ := List.exists_cons_of_ne_nil (by simpa using hempty)
    obtain rfl : c = separator := by simpa using hhead c (congrArg List.head? hcons)
    rw [hcons] at hs
    refine ⟨?_, ?_, fun hmem => by simpa using hnot c hmem⟩
    · simpa [drop, hcons] using hs
    · simp [drop, hcons, hstart]
  · rintro ⟨hs, hstart, hbefore⟩
    let rest : Slice := ⟨before.stop, separator :: after.text⟩
    have hsplit : s.takeWhile (· != separator) = before ∧ s.dropWhile (· != separator) = rest :=
      takeWhile_and_dropWhile_eq_iff.mpr ⟨hs, rfl,
        fun c hc => by simpa using fun heq : c = separator => hbefore (heq ▸ hc), by simp [rest]⟩
    have hafter : rest.drop 1 = after := congrArg₂ Slice.mk (by simp [rest, hstart]) rfl
    have hne : rest.text.isEmpty = false := rfl
    simp [hsplit, hne, hafter]

theorem splitOnce?_eq_none_iff {separator : Char} :
    s.splitOnce? separator = none ↔ separator ∉ s.text := by
  simp [Slice.splitOnce?, dropWhile]

/-! ### Pieces -/

/-- What comes before the next separator is added to the piece. -/
theorem piecesFrom_append {separator : Char} {part : List Char} (hpart : separator ∉ part) :
    ∀ (start : Nat) (seen cs : List Char),
      piecesFrom separator start seen (part ++ cs) =
        piecesFrom separator start (part.reverse ++ seen) cs := by
  induction part with
  | nil => exact fun _ _ _ => rfl
  | cons c part ih =>
    intro start seen cs
    obtain ⟨hc, hpart⟩ := not_or.mp (mt List.mem_cons.mpr hpart)
    rw [List.cons_append, piecesFrom, if_neg (Ne.symm hc), ih hpart]
    simp

theorem pieces_of_splitOnce?_eq_none {separator : Char} (h : s.splitOnce? separator = none) :
    s.pieces separator = [s] := by
  have hpieces := piecesFrom_append (splitOnce?_eq_none_iff.mp h) s.start [] []
  rw [List.append_nil, List.append_nil] at hpieces
  rw [pieces, hpieces, piecesFrom, List.reverse_reverse]

/-- **The pieces** are what comes before the first separator, and the pieces of what comes after. -/
theorem pieces_of_splitOnce?_eq_some {separator : Char} {before after : Slice}
    (h : s.splitOnce? separator = some (before, after)) :
    s.pieces separator = before :: after.pieces separator := by
  obtain ⟨hs, hafter, hnot⟩ := splitOnce?_eq_some_iff.mp h
  have hstart : before.start = s.start := hs.start
  have hpieces := piecesFrom_append hnot s.start [] (separator :: after.text)
  rw [List.append_nil] at hpieces
  rw [pieces, hs.text, List.nil_append, hpieces, piecesFrom, if_pos rfl, List.reverse_reverse,
    Text.bytes_reverse, ← hstart, pieces, hafter]
  rfl

end Slice

end SymbolicAlgebra
