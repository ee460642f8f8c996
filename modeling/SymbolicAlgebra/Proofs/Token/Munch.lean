import SymbolicAlgebra.Proofs.Text.Piece
import SymbolicAlgebra.Proofs.Token.Pattern

/-! # Longest match

The tokens of a text are cut off one by one, each the longest start of the rest that some pattern
matches (`Munches`). The patterns are such that what matches could have stopped after any of its
characters, so a scanner that stops where no token goes on never has to step back: it finds these
tokens, and there are no others (`munches_iff`). -/

namespace SymbolicAlgebra.Token

open Plain (joins?)

/-- **The longest start of the text** that some pattern matches. -/
structure IsLongest (lexeme text : List Char) : Prop where
  isPrefix : lexeme <+: text
  matched : ∃ kind : TokenKind, lexeme ∈ kind.pattern
  longest {other : List Char} : other <+: text → (∃ kind : TokenKind, other ∈ kind.pattern) →
    other.length ≤ lexeme.length

/-- **The text at this place is cut into these tokens**, each the longest start of the rest. -/
inductive Munches : Nat → List Char → List Token → Prop where
  | nil (start : Nat) : Munches start [] []
  | cons {start : Nat} {text lexeme rest : List Char} {kind : TokenKind} {tokens : List Token} :
    text = lexeme ++ rest → IsLongest lexeme text → Spells kind lexeme →
    Munches (start + Text.bytes lexeme) rest tokens →
    Munches start text (⟨kind, start, lexeme⟩ :: tokens)

/-- **The tokens fill the space** between two places, one after the other. -/
inductive Fills : Nat → List Token → Nat → Prop where
  | nil (place : Nat) : Fills place [] place
  | cons {t : Token} {tokens : List Token} {start stop : Nat} :
    t.span.start = start → Fills t.span.stop tokens stop → Fills start (t :: tokens) stop

variable {start stop : Nat} {text lexeme rest : List Char} {tokens : List Token}

/-! ### One token -/

theorem Shape.Reads.ne_nil {shape : Shape} (h : shape.Reads text) : text ≠ [] := by
  rintro rfl
  have hnone := Shape.ofText?_of_reads h
  cases hnone

theorem Spells.ne_nil {kind : TokenKind} (h : Spells kind text) : text ≠ [] :=
  (spells_iff.mp h).elim fun _ hshape => hshape.1.ne_nil

theorem Spells.unique {kind other : TokenKind} (h : Spells kind text) (h' : Spells other text) :
    kind = other := by
  obtain ⟨shape, hshape, rfl⟩ := spells_iff.mp h
  obtain ⟨shape', hshape', rfl⟩ := spells_iff.mp h'
  rw [hshape.unique hshape']

theorem joins?_append_eq_bind : ∀ (cs ds : List Char) (shape : Shape),
    joins? shape (cs ++ ds) = (joins? shape cs).bind fun longer => joins? longer ds
  | [], _, _ => rfl
  | c :: cs, ds, shape => by
    rw [List.cons_append, joins?, joins?, Option.bind_assoc]
    exact Option.bind_congr fun longer _ => joins?_append_eq_bind cs ds longer

/-- **Some pattern matches every start of a token.** So a token never ends before the first
character that does not join it. -/
theorem Shape.Reads.shorter {longer : Shape} {before after : List Char} (hne : before ≠ [])
    (h : longer.Reads (before ++ after)) :
    ∃ shape : Shape, shape.Reads before ∧ joins? shape after = some longer := by
  obtain ⟨c, cs, rfl⟩ := List.exists_cons_of_ne_nil hne
  have hjoins : joins? (Shape.ofChar c) (cs ++ after) = some longer := Shape.ofText?_of_reads h
  rw [joins?_append_eq_bind] at hjoins
  obtain ⟨shape, hshape, hafter⟩ := Option.bind_eq_some_iff.mp hjoins
  exact ⟨shape, Shape.ofText?_eq_some_iff.mp hshape, hafter⟩

/-- **A token that the next character does not join is the longest one.** -/
theorem Shape.Reads.isLongest {shape : Shape} (h : shape.Reads lexeme) (rest : List Char)
    (hstop : ∀ c ∈ rest.head?, shape.extend? c = none) : IsLongest lexeme (lexeme ++ rest) where
  isPrefix := List.prefix_append _ _
  matched := exists_mem_pattern_iff.mpr ⟨shape, h⟩
  longest {other} hother hmatched := by
    by_contra hlonger
    obtain ⟨longer, hreads⟩ := exists_mem_pattern_iff.mp hmatched
    obtain ⟨more, rfl⟩ : lexeme <+: other :=
      List.prefix_of_prefix_length_le (List.prefix_append _ _) hother (by omega)
    obtain ⟨others, hrest⟩ : more <+: rest := (List.prefix_append_right_inj lexeme).mp hother
    obtain ⟨shape', hshape', hjoins⟩ := hreads.shorter h.ne_nil
    obtain rfl := hshape'.unique h
    cases more with
    | nil => simp at hlonger
    | cons c cs =>
      obtain ⟨next, hnext, -⟩ := Option.bind_eq_some_iff.mp hjoins
      rw [hstop c (hrest ▸ rfl)] at hnext
      cases hnext

/-- A text has one longest token. -/
theorem IsLongest.unique {other : List Char} (h : IsLongest lexeme text)
    (h' : IsLongest other text) : lexeme = other := by
  have hle := h'.longest h.isPrefix h.matched
  have hge := h.longest h'.isPrefix h'.matched
  exact (List.prefix_of_prefix_length_le h.isPrefix h'.isPrefix hle).eq_of_length
    (Nat.le_antisymm hle hge)

/-! ### All tokens -/

/-- The scanner in the middle of a token: what it has seen of it has its shape. -/
theorem munches_scanFrom : ∀ (cs seen : List Char) {shape : Shape} (start : Nat),
    shape.Reads seen.reverse → Munches start (seen.reverse ++ cs) (scanFrom shape start seen cs)
  | [], seen, shape, start, h => by
    have hlongest := h.isLongest [] (by simp)
    exact .cons rfl hlongest (spells_iff.mpr ⟨shape, h, rfl⟩) (.nil _)
  | c :: cs, seen, shape, start, h => by
    rw [scanFrom]
    split
    · next longer hlonger =>
      have hseen : longer.Reads (c :: seen).reverse := by
        rw [List.reverse_cons]
        exact h.extend hlonger
      have hrest := munches_scanFrom cs (c :: seen) start hseen
      rwa [List.reverse_cons, List.append_assoc, List.singleton_append] at hrest
    · next hstop =>
      have hlongest := h.isLongest (c :: cs) (by simpa using hstop)
      have hrest := munches_scanFrom cs [c] (start + Text.bytes seen.reverse)
        (Shape.reads_ofChar c)
      rw [Text.bytes_reverse] at hrest
      exact .cons rfl hlongest (spells_iff.mpr ⟨shape, h, rfl⟩)
        (by rwa [Text.bytes_reverse])

/-- **The scanner finds the longest tokens.** -/
theorem munches_scan (text : List Char) : Munches 0 text (scan text) := by
  cases text with
  | nil => exact .nil 0
  | cons c cs => exact munches_scanFrom cs [c] 0 (Shape.reads_ofChar c)

/-- **There is one way to cut a text.** -/
theorem Munches.unique {tokens tokens' : List Token} {start : Nat} {text : List Char}
    (h : Munches start text tokens) (h' : Munches start text tokens') : tokens = tokens' := by
  induction h generalizing tokens' with
  | nil =>
    cases h' with
    | nil => rfl
    | cons htext _ hspells _ =>
      exact absurd (List.append_eq_nil_iff.mp htext.symm).1 hspells.ne_nil
  | cons htext hlongest hspells _ ih =>
    cases h' with
    | nil => exact absurd (List.append_eq_nil_iff.mp htext.symm).1 hspells.ne_nil
    | cons htext' hlongest' hspells' hrest' =>
      obtain rfl := hlongest.unique hlongest'
      obtain rfl := hspells.unique hspells'
      obtain rfl := List.append_cancel_left (htext.symm.trans htext')
      rw [ih hrest']

theorem munches_iff : Munches 0 text tokens ↔ tokens = scan text := by
  constructor
  · exact fun h => h.unique (munches_scan text)
  · rintro rfl
    exact munches_scan text

/-! ### Places -/

theorem Munches.ne_nil (h : Munches start text tokens) : ∀ t ∈ tokens, t.lexeme ≠ [] := by
  induction h with
  | nil => simp
  | cons _ _ hspells _ ih => exact List.forall_mem_cons.mpr ⟨hspells.ne_nil, ih⟩

theorem Munches.spells (h : Munches start text tokens) :
    ∀ t ∈ tokens, Spells t.kind t.lexeme := by
  induction h with
  | nil => simp
  | cons _ _ hspells _ ih => exact List.forall_mem_cons.mpr ⟨hspells, ih⟩

/-- **Nothing is lost.** -/
theorem Munches.flatMap_lexeme (h : Munches start text tokens) : tokens.flatMap Token.lexeme = text := by
  induction h with
  | nil => rfl
  | cons htext _ _ _ ih => rw [List.flatMap_cons, ih, htext]; rfl

theorem Munches.fills (h : Munches start text tokens) :
    Fills start tokens (start + Text.bytes text) := by
  induction h with
  | nil => exact .nil _
  | cons htext _ _ _ ih =>
    refine .cons rfl ?_
    rw [htext, Text.bytes_append, ← Nat.add_assoc]
    exact ih

/-- Tokens of the rest of a text are pieces of the whole text. -/
theorem Munches.pieces {whole before : List Char} (h : Munches start text tokens)
    (hwhole : whole = before ++ text) (hstart : start = Text.bytes before) :
    ∀ t ∈ tokens, t.slice.PieceOf whole := by
  induction h generalizing before with
  | nil => simp
  | @cons start text lexeme rest kind tokens htext _ _ _ ih =>
    subst htext hstart
    rw [← List.append_assoc] at hwhole
    refine List.forall_mem_cons.mpr ⟨⟨before, rest, hwhole, rfl⟩, ih hwhole ?_⟩
    rw [Text.bytes_append]

theorem Fills.start_le (h : Fills start tokens stop) : ∀ t ∈ tokens, start ≤ t.slice.start := by
  induction h with
  | nil => simp
  | @cons t tokens start stop hstart _ ih =>
    refine List.forall_mem_cons.mpr ⟨hstart.ge, fun u hu => ?_⟩
    have hstop : t.slice.start ≤ t.slice.stop := Nat.le_add_right _ _
    exact hstart.ge.trans (hstop.trans (ih u hu))

/-- **Tokens that fill a space are in order.** -/
theorem Fills.ordered (h : Fills start tokens stop) :
    tokens.Pairwise fun t u => t.slice.stop ≤ u.slice.start := by
  induction h with
  | nil => exact .nil
  | cons _ hrest ih => exact .cons hrest.start_le ih

end SymbolicAlgebra.Token
