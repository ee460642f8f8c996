import Mathlib
import SymbolicAlgebra.Token

/-! # Scanning text piece by piece

The tokens of a text that is put together from pieces are the tokens of the pieces, if no token runs
across a seam. A *mark*, such as a bracket or an operator, is a token by itself and never joins
another one. So names and numbers can be followed by any text that starts with a mark, and marks by
any text at all. `Scans text ts` says that a text has the tokens `ts` wherever a mark follows. The
places of tokens are left out here. -/

namespace SymbolicAlgebra.Plain

open Token (Shape scanFrom scan)

/-- The token as if it stood at the start of a text. -/
def bare (t : Token) : Token := ⟨t.kind, 0, t.lexeme⟩

/-- The tokens of a text, without their places. -/
def lexemes (text : List Char) : List Token := (scan text).map bare

/-- A character that is a token by itself and joins no other one. -/
def IsMark (c : Char) : Prop := Shape.ofChar c = .single (Shape.kindOfChar c)

/-- The token that a mark is. -/
def mark (c : Char) : Token := ⟨Shape.kindOfChar c, 0, [c]⟩

/-- A text that is empty or starts with a mark. -/
def Breaks (text : List Char) : Prop := ∀ c ∈ text.head?, IsMark c

/-- **The text has these tokens**, whatever text that starts with a mark follows. -/
def Scans (text : List Char) (ts : List Token) : Prop :=
  ∀ rest, Breaks rest → lexemes (text ++ rest) = ts ++ lexemes rest

/-! ### One token -/

/-- The shape after some more characters, if all of them join the token. -/
def joins? : Shape → List Char → Option Shape
  | shape, [] => some shape
  | shape, c :: cs => (shape.extend? c).bind fun longer => joins? longer cs

theorem scanFrom_joins : ∀ {cs : List Char} {shape longer : Shape}
    (_ : joins? shape cs = some longer) (start : Nat) (seen rest : List Char),
    scanFrom shape start seen (cs ++ rest) = scanFrom longer start (cs.reverse ++ seen) rest
  | [], shape, longer, h, start, seen, rest => by
    rw [Option.some.inj h]
    rfl
  | c :: cs, shape, longer, h, start, seen, rest => by
    obtain ⟨next, hnext, h⟩ := Option.bind_eq_some_iff.mp h
    rw [List.cons_append, scanFrom, hnext]
    simp only
    rw [scanFrom_joins h, List.reverse_cons, List.append_assoc, List.singleton_append]

theorem bare_scanFrom : ∀ (cs : List Char) (shape : Shape) (start start' : Nat) (seen : List Char),
    (scanFrom shape start seen cs).map bare = (scanFrom shape start' seen cs).map bare
  | [], shape, start, start', seen => rfl
  | c :: cs, shape, start, start', seen => by
    rw [scanFrom, scanFrom]
    split
    · exact bare_scanFrom cs _ start start' _
    · rw [List.map_cons, List.map_cons, bare_scanFrom cs _ _ (start' + Text.bytes seen)]
      rfl

/-- A token ends where the next character does not join it. -/
theorem bare_scanFrom_stops {shape : Shape} {rest : List Char} (start : Nat) (seen : List Char)
    (h : ∀ c ∈ rest.head?, shape.extend? c = none) :
    (scanFrom shape start seen rest).map bare = ⟨shape.kind, 0, seen.reverse⟩ :: lexemes rest := by
  cases rest with
  | nil => rfl
  | cons c cs =>
    rw [scanFrom, h c (by simp)]
    simp only
    rw [List.map_cons, lexemes, scan, bare_scanFrom cs _ _ 0]
    rfl

theorem lexemes_token {c : Char} {cs rest : List Char} {shape : Shape}
    (hcs : joins? (Shape.ofChar c) cs = some shape)
    (hrest : ∀ d ∈ rest.head?, shape.extend? d = none) :
    lexemes (c :: cs ++ rest) = ⟨shape.kind, 0, c :: cs⟩ :: lexemes rest := by
  rw [lexemes, List.cons_append, scan, scanFrom_joins hcs, bare_scanFrom_stops 0 _ hrest]
  simp

/-! ### Letters, digits and marks -/

theorem isLayout_of_isAlpha {c : Char} (h : c.isAlpha = true) : Token.isLayout c = false := by
  by_contra hlayout
  simp only [Bool.not_eq_false, Token.isLayout, Bool.or_eq_true, beq_iff_eq] at hlayout
  rcases hlayout with ((rfl | rfl) | rfl) | rfl <;> exact absurd h (by decide)

theorem isLayout_of_isDigit {c : Char} (h : c.isDigit = true) : Token.isLayout c = false := by
  by_contra hlayout
  simp only [Bool.not_eq_false, Token.isLayout, Bool.or_eq_true, beq_iff_eq] at hlayout
  rcases hlayout with ((rfl | rfl) | rfl) | rfl <;> exact absurd h (by decide)

theorem isAlpha_of_isDigit {c : Char} (h : c.isDigit = true) : c.isAlpha = false := by
  simp only [Char.isDigit, Bool.and_eq_true, decide_eq_true_eq] at h
  simp only [Char.isAlpha, Char.isUpper, Char.isLower, Bool.or_eq_false_iff,
    decide_eq_false_iff_not, Bool.and_eq_false_iff]
  obtain ⟨hlow, hhigh⟩ := h
  refine ⟨?_, ?_⟩ <;> grind

theorem ofChar_alpha {c : Char} (h : c.isAlpha = true) : Shape.ofChar c = .letters := by
  rw [Shape.ofChar, isLayout_of_isAlpha h, h]
  rfl

theorem ofChar_digit {c : Char} (h : c.isDigit = true) : Shape.ofChar c = .whole := by
  rw [Shape.ofChar, isLayout_of_isDigit h, isAlpha_of_isDigit h, h]
  rfl

theorem lexemes_mark {c : Char} (hc : IsMark c) (rest : List Char) :
    lexemes (c :: rest) = mark c :: lexemes rest := by
  have hjoins : joins? (Shape.ofChar c) [] = some (.single (Shape.kindOfChar c)) := by
    rw [joins?, hc]
  exact lexemes_token hjoins fun _ _ => rfl

theorem IsMark.not_alpha {c : Char} (hc : IsMark c) : c.isAlpha = false := by
  by_contra h
  rw [IsMark, ofChar_alpha (Bool.not_eq_false _ ▸ h)] at hc
  cases hc

theorem IsMark.not_digit {c : Char} (hc : IsMark c) : c.isDigit = false := by
  by_contra h
  rw [IsMark, ofChar_digit (Bool.not_eq_false _ ▸ h)] at hc
  cases hc

theorem IsMark.ne_point {c : Char} (hc : IsMark c) : c ≠ '.' := by
  rintro rfl
  revert hc
  unfold IsMark
  decide

theorem Scans.nil : Scans [] [] := fun _ _ => rfl

theorem Scans.mark {c : Char} {text : List Char} {ts : List Token} (hc : IsMark c)
    (h : Scans text ts) : Scans (c :: text) (Plain.mark c :: ts) := by
  intro rest hrest
  rw [List.cons_append, lexemes_mark hc, h rest hrest]
  rfl

theorem Scans.append {text more : List Char} {ts us : List Token} (h : Scans text ts)
    (h' : Scans more us) (hmore : Breaks more) : Scans (text ++ more) (ts ++ us) := by
  intro rest hrest
  have hbreaks : Breaks (more ++ rest) := by
    cases more with
    | nil => exact hrest
    | cons c cs => exact hmore
  rw [List.append_assoc, h _ hbreaks, h' rest hrest, List.append_assoc]

/-! ### Names and numbers -/

theorem joins?_letters : ∀ {cs : List Char}, (∀ c ∈ cs, c.isAlpha = true) →
    joins? .letters cs = some .letters
  | [], _ => rfl
  | c :: cs, h => by
    obtain ⟨hc, hcs⟩ := List.forall_mem_cons.mp h
    rw [joins?, Shape.extend?, if_pos hc]
    exact joins?_letters hcs

theorem joins?_whole : ∀ {cs : List Char}, (∀ c ∈ cs, c.isDigit = true) →
    joins? .whole cs = some .whole
  | [], _ => rfl
  | c :: cs, h => by
    obtain ⟨hc, hcs⟩ := List.forall_mem_cons.mp h
    rw [joins?, Shape.extend?, if_pos hc]
    exact joins?_whole hcs

theorem joins?_places : ∀ {cs : List Char}, (∀ c ∈ cs, c.isDigit = true) →
    joins? .places cs = some .places
  | [], _ => rfl
  | c :: cs, h => by
    obtain ⟨hc, hcs⟩ := List.forall_mem_cons.mp h
    rw [joins?, Shape.extend?, if_pos hc]
    exact joins?_places hcs

theorem joins?_append : ∀ {cs ds : List Char} {shape longer : Shape},
    joins? shape cs = some longer → joins? shape (cs ++ ds) = joins? longer ds
  | [], ds, shape, longer, h => by rw [Option.some.inj h]; rfl
  | c :: cs, ds, shape, longer, h => by
    obtain ⟨next, hnext, h⟩ := Option.bind_eq_some_iff.mp h
    rw [List.cons_append, joins?, hnext]
    exact joins?_append h

/-- Digits, and possibly a point and more digits. -/
def IsDecimal (text : List Char) : Prop :=
  ∃ whole : List Char, whole ≠ [] ∧ (∀ c ∈ whole, c.isDigit = true) ∧
    (text = whole ∨ ∃ places, (∀ c ∈ places, c.isDigit = true) ∧ text = whole ++ '.' :: places)

theorem IsDecimal.digit {c : Char} (h : c.isDigit = true) : IsDecimal [c] :=
  ⟨[c], List.cons_ne_nil _ _, List.forall_mem_singleton.mpr h, .inl rfl⟩

/-- **A run of letters is a name.** -/
theorem scans_name {name : List Char} (hne : name ≠ []) (h : ∀ c ∈ name, c.isAlpha = true) :
    Scans name [⟨.name, 0, name⟩] := by
  intro rest hrest
  obtain ⟨c, cs, rfl⟩ := List.exists_cons_of_ne_nil hne
  obtain ⟨hc, hcs⟩ := List.forall_mem_cons.mp h
  have hjoins : joins? (Shape.ofChar c) cs = some .letters := by
    rw [ofChar_alpha hc]
    exact joins?_letters hcs
  refine lexemes_token hjoins fun d hd => ?_
  rw [Shape.extend?, (hrest d hd).not_alpha]
  rfl

/-- **A decimal is a number.** -/
theorem scans_number {text : List Char} (h : IsDecimal text) : Scans text [⟨.number, 0, text⟩] := by
  intro rest hrest
  obtain ⟨whole, hne, hwhole, htext⟩ := h
  obtain ⟨c, cs, rfl⟩ := List.exists_cons_of_ne_nil hne
  obtain ⟨hc, hcs⟩ := List.forall_mem_cons.mp hwhole
  have hjoins : joins? (Shape.ofChar c) cs = some .whole := by
    rw [ofChar_digit hc]
    exact joins?_whole hcs
  rcases htext with rfl | ⟨places, hplaces, rfl⟩
  · refine lexemes_token hjoins fun d hd => ?_
    rw [Shape.extend?, (hrest d hd).not_digit, if_neg (hrest d hd).ne_point]
    rfl
  · have hall : joins? (Shape.ofChar c) (cs ++ '.' :: places) = some .places := by
      rw [joins?_append hjoins]
      exact joins?_places hplaces
    refine lexemes_token hall fun d hd => ?_
    rw [Shape.extend?, (hrest d hd).not_digit]
    rfl

/-! ### Letters of names -/

theorem kindOfChar_ne_name (c : Char) : Shape.kindOfChar c ≠ .name := by
  unfold Shape.kindOfChar
  split <;> decide

/-- The characters of a name are letters, also while it is being read. -/
def LettersIfName (shape : Shape) (seen : List Char) : Prop :=
  shape.kind = .name → ∀ c ∈ seen, c.isAlpha = true

theorem lettersIfName_ofChar (c : Char) : LettersIfName (Shape.ofChar c) [c] := by
  intro h
  unfold Shape.ofChar at h
  split_ifs at h with hlayout halpha
  · cases h
  · exact List.forall_mem_singleton.mpr halpha
  · cases h
  · cases h
  · exact absurd h (kindOfChar_ne_name c)

theorem LettersIfName.extend {shape longer : Shape} {c : Char} {seen : List Char}
    (hseen : LettersIfName shape seen) (h : shape.extend? c = some longer) :
    LettersIfName longer (c :: seen) := by
  intro hname
  cases shape with
  | letters =>
    rw [Shape.extend?] at h
    split_ifs at h with halpha
    exact List.forall_mem_cons.mpr ⟨halpha, hseen rfl⟩
  | single => cases h
  | _ =>
    rw [Shape.extend?] at h
    split_ifs at h <;> cases h <;> cases hname

theorem isAlpha_of_mem_scanFrom : ∀ {cs : List Char} {shape : Shape} {start : Nat}
    {seen : List Char}, LettersIfName shape seen →
    ∀ t ∈ scanFrom shape start seen cs, t.kind = .name → ∀ c ∈ t.lexeme, c.isAlpha = true
  | [], shape, start, seen, hseen, t, ht, hname => by
    rw [scanFrom, List.mem_singleton] at ht
    subst ht
    exact fun c hc => hseen hname c (List.mem_reverse.mp hc)
  | c :: cs, shape, start, seen, hseen, t, ht, hname => by
    rw [scanFrom] at ht
    split at ht
    · next longer hlonger => exact isAlpha_of_mem_scanFrom (hseen.extend hlonger) t ht hname
    · rcases List.mem_cons.mp ht with rfl | ht
      · exact fun d hd => hseen hname d (List.mem_reverse.mp hd)
      · exact isAlpha_of_mem_scanFrom (lettersIfName_ofChar c) t ht hname

/-- **Names consist of letters.** -/
theorem isAlpha_of_mem_scan {text : List Char} {t : Token} (ht : t ∈ scan text)
    (hname : t.kind = .name) : ∀ c ∈ t.lexeme, c.isAlpha = true := by
  cases text with
  | nil => cases ht
  | cons c cs => exact isAlpha_of_mem_scanFrom (lettersIfName_ofChar c) t ht hname

end SymbolicAlgebra.Plain
