import Mathlib.Computability.Language
import SymbolicAlgebra.Proofs.Plain.Scan

/-! # Token patterns

Each kind of token has a pattern, a regular language of texts. A symbol is any single character, but
only if no other pattern matches it (`Token.Spells`). The scanner knows a token by its shape. The
texts of a shape are those that the shape `Reads`, and the kind of a text's shape is the kind that
the text spells (`spells_iff`). -/

namespace SymbolicAlgebra

open Plain (joins?)
open scoped Computability

namespace TokenKind

/-- The texts of one character out of a class. -/
def single (p : Char → Prop) : Language Char := {text | ∃ c, p c ∧ text = [c]}

/-- The texts of one or more characters out of a class. -/
def run (p : Char → Prop) : Language Char := single p * (single p)∗

def digit (c : Char) : Prop := '0' ≤ c ∧ c ≤ '9'

def letter (c : Char) : Prop := ('a' ≤ c ∧ c ≤ 'z') ∨ ('A' ≤ c ∧ c ≤ 'Z')

/-- **The pattern of a kind of token.** A number has two patterns. -/
def pattern : TokenKind → Language Char
  | layout => run fun c => c ∈ [' ', '\t', '\n', '\r']
  | plus => {['+']}
  | minus => {['-']}
  | times => {['*']}
  | slash => {['/']}
  | caret => {['^']}
  | comma => {[',']}
  | underscore => {['_']}
  | opening => single fun c => c ∈ ['(', '[', '\x7b']
  | closing => single fun c => c ∈ [')', ']', '\x7d']
  | number => run digit * (1 + {['.']}) * (single digit)∗ + {['.']} * run digit
  | name => run letter
  | symbol => single fun c => c ≠ '\n'

theorem digit_iff {c : Char} : digit c ↔ c.isDigit = true := by
  rw [Char.isDigit, Bool.and_eq_true, decide_eq_true_eq, decide_eq_true_eq]
  rfl

theorem letter_iff {c : Char} : letter c ↔ c.isAlpha = true := by
  simp only [Char.isAlpha, Char.isUpper, Char.isLower, Bool.or_eq_true, Bool.and_eq_true,
    decide_eq_true_eq]
  exact or_comm

theorem mem_singleton {u text : List Char} : text ∈ ({u} : Language Char) ↔ text = u := Iff.rfl

theorem mem_kstar_single {p : Char → Prop} {text : List Char} :
    text ∈ (single p)∗ ↔ ∀ c ∈ text, p c := by
  rw [Language.mem_kstar]
  constructor
  · rintro ⟨parts, rfl, hparts⟩ c hc
    obtain ⟨part, hpart, hc⟩ := List.mem_flatten.mp hc
    obtain ⟨d, hd, rfl⟩ := hparts part hpart
    exact List.mem_singleton.mp hc ▸ hd
  · intro h
    refine ⟨text.map fun c => [c], (List.flatMap_singleton' text).symm, fun part hpart => ?_⟩
    obtain ⟨c, hc, rfl⟩ := List.mem_map.mp hpart
    exact ⟨c, h c hc, rfl⟩

theorem mem_run {p : Char → Prop} {text : List Char} :
    text ∈ run p ↔ text ≠ [] ∧ ∀ c ∈ text, p c := by
  rw [run, Language.mem_mul]
  constructor
  · rintro ⟨_, ⟨c, hc, rfl⟩, rest, hrest, rfl⟩
    exact ⟨by simp, List.forall_mem_cons.mpr ⟨hc, mem_kstar_single.mp hrest⟩⟩
  · rintro ⟨hne, h⟩
    obtain ⟨c, cs, rfl⟩ := List.exists_cons_of_ne_nil hne
    obtain ⟨hc, hcs⟩ := List.forall_mem_cons.mp h
    exact ⟨[c], ⟨c, hc, rfl⟩, cs, mem_kstar_single.mpr hcs, rfl⟩

end TokenKind

open TokenKind (digit letter single run)

namespace Token

/-- **The text spells a token of the kind**: its pattern matches, and if that is the pattern of
symbols then no other one does. -/
def Spells (kind : TokenKind) (text : List Char) : Prop :=
  text ∈ kind.pattern ∧ (kind = .symbol → ∀ other : TokenKind, text ∈ other.pattern → other = .symbol)

/-- **Digits with at most one point and at least one digit.** -/
def IsNumber (text : List Char) : Prop :=
  ∃ whole places, (∀ c ∈ whole, digit c) ∧ (∀ c ∈ places, digit c) ∧ whole ++ places ≠ [] ∧
    (text = whole ++ places ∨ text = whole ++ '.' :: places)

namespace Shape

/-- The texts of a shape. -/
def Reads : Shape → List Char → Prop
  | layout, text => text ≠ [] ∧ ∀ c ∈ text, isLayout c = true
  | letters, text => text ≠ [] ∧ ∀ c ∈ text, c.isAlpha = true
  | whole, text => text ≠ [] ∧ ∀ c ∈ text, c.isDigit = true
  | places, text => ∃ whole places : List Char, (∀ c ∈ whole, c.isDigit = true) ∧
      (∀ c ∈ places, c.isDigit = true) ∧ whole ++ places ≠ [] ∧ text = whole ++ '.' :: places
  | point, text => text = ['.']
  | Shape.single kind, text => ∃ c, ofChar c = .single kind ∧ text = [c]

/-- The shape of a text that is one token. -/
def ofText? : List Char → Option Shape
  | [] => none
  | c :: cs => joins? (ofChar c) cs

theorem kindOfChar_eq_of_ofChar {c : Char} {kind : TokenKind} (h : ofChar c = .single kind) :
    kindOfChar c = kind := by
  unfold ofChar at h
  split_ifs at h
  exact Shape.single.inj h

theorem reads_ofChar (c : Char) : (ofChar c).Reads [c] := by
  rcases h : ofChar c with _ | _ | _ | _ | _ | kind
  all_goals unfold ofChar at h; split_ifs at h with hlayout halpha hdigit hpoint
  · exact ⟨List.cons_ne_nil _ _, List.forall_mem_singleton.mpr hlayout⟩
  · exact ⟨List.cons_ne_nil _ _, List.forall_mem_singleton.mpr halpha⟩
  · exact ⟨List.cons_ne_nil _ _, List.forall_mem_singleton.mpr hdigit⟩
  · exact congrArg (fun d => [d]) hpoint
  · refine ⟨c, ?_, rfl⟩
    rw [ofChar, if_neg hlayout, if_neg halpha, if_neg hdigit, if_neg hpoint]
    exact h

/-- A character that joins a token reads on in the longer shape. -/
theorem Reads.extend {shape longer : Shape} {text : List Char} {c : Char} (h : shape.Reads text)
    (hc : shape.extend? c = some longer) : longer.Reads (text ++ [c]) := by
  have hone {p : Char → Prop} (hall : ∀ d ∈ text, p d) (hp : p c) : ∀ d ∈ text ++ [c], p d :=
    List.forall_mem_append.mpr ⟨hall, List.forall_mem_singleton.mpr hp⟩
  have hne : text ++ [c] ≠ [] := by simp
  cases shape with
  | layout =>
    rw [extend?] at hc
    split_ifs at hc with hlayout
    exact Option.some.inj hc ▸ ⟨hne, hone h.2 hlayout⟩
  | letters =>
    rw [extend?] at hc
    split_ifs at hc with halpha
    exact Option.some.inj hc ▸ ⟨hne, hone h.2 halpha⟩
  | whole =>
    rw [extend?] at hc
    split_ifs at hc with hdigit hpoint
    · exact Option.some.inj hc ▸ ⟨hne, hone h.2 hdigit⟩
    · subst hpoint
      exact Option.some.inj hc ▸ ⟨text, [], h.2, by simp, by simpa using h.1, rfl⟩
  | places =>
    rw [extend?] at hc
    split_ifs at hc with hdigit
    obtain ⟨whole, places, hwhole, hplaces, -, rfl⟩ := h
    refine Option.some.inj hc ▸ ⟨whole, places ++ [c], hwhole, ?_, by simp, by simp⟩
    exact List.forall_mem_append.mpr ⟨hplaces, List.forall_mem_singleton.mpr hdigit⟩
  | point =>
    rw [extend?] at hc
    split_ifs at hc with hdigit
    obtain rfl : text = ['.'] := h
    exact Option.some.inj hc ▸
      ⟨[], [c], by simp, List.forall_mem_singleton.mpr hdigit, by simp, rfl⟩
  | single kind => cases hc

theorem Reads.joins : ∀ {cs : List Char} {shape longer : Shape} {text : List Char},
    shape.Reads text → joins? shape cs = some longer → longer.Reads (text ++ cs)
  | [], _, _, _, h, hcs => by
    rw [List.append_nil]
    exact Option.some.inj hcs ▸ h
  | c :: cs, _, _, text, h, hcs => by
    obtain ⟨next, hnext, hcs⟩ := Option.bind_eq_some_iff.mp hcs
    have hrest := (h.extend hnext).joins hcs
    rwa [List.append_assoc, List.singleton_append] at hrest

theorem joins?_layout : ∀ {cs : List Char}, (∀ c ∈ cs, isLayout c = true) →
    joins? .layout cs = some .layout
  | [], _ => rfl
  | c :: cs, h => by
    obtain ⟨hc, hcs⟩ := List.forall_mem_cons.mp h
    rw [joins?, extend?, if_pos hc]
    exact joins?_layout hcs

theorem ofText?_of_reads {shape : Shape} {text : List Char} (h : shape.Reads text) :
    ofText? text = some shape := by
  cases shape with
  | layout =>
    obtain ⟨c, cs, rfl⟩ := List.exists_cons_of_ne_nil h.1
    obtain ⟨hc, hcs⟩ := List.forall_mem_cons.mp h.2
    rw [ofText?, ofChar, if_pos hc]
    exact joins?_layout hcs
  | letters =>
    obtain ⟨c, cs, rfl⟩ := List.exists_cons_of_ne_nil h.1
    obtain ⟨hc, hcs⟩ := List.forall_mem_cons.mp h.2
    rw [ofText?, Plain.ofChar_alpha hc]
    exact Plain.joins?_letters hcs
  | whole =>
    obtain ⟨c, cs, rfl⟩ := List.exists_cons_of_ne_nil h.1
    obtain ⟨hc, hcs⟩ := List.forall_mem_cons.mp h.2
    rw [ofText?, Plain.ofChar_digit hc]
    exact Plain.joins?_whole hcs
  | places =>
    obtain ⟨whole, places, hwhole, hplaces, hne, rfl⟩ := h
    cases whole with
    | nil =>
      obtain ⟨d, ds, rfl⟩ := List.exists_cons_of_ne_nil hne
      obtain ⟨hd, hds⟩ := List.forall_mem_cons.mp hplaces
      have hpoint : extend? .point d = some .places := if_pos hd
      show (extend? .point d).bind _ = _
      rw [hpoint]
      exact Plain.joins?_places hds
    | cons c cs =>
      obtain ⟨hc, hcs⟩ := List.forall_mem_cons.mp hwhole
      rw [List.cons_append, ofText?, Plain.ofChar_digit hc,
        Plain.joins?_append (Plain.joins?_whole hcs)]
      exact Plain.joins?_places hplaces
  | point =>
    obtain rfl : text = ['.'] := h
    rfl
  | single kind =>
    obtain ⟨c, hc, rfl⟩ := h
    exact congrArg some hc

/-- **The texts of a shape are those that are one token of this shape.** -/
theorem ofText?_eq_some_iff {shape : Shape} {text : List Char} :
    ofText? text = some shape ↔ shape.Reads text := by
  refine ⟨fun h => ?_, ofText?_of_reads⟩
  cases text with
  | nil => cases h
  | cons c cs => exact (reads_ofChar c).joins h

end Shape

/-! ### Patterns and shapes -/

theorem isLayout_iff {c : Char} : isLayout c = true ↔ c ∈ [' ', '\t', '\n', '\r'] := by
  simp only [isLayout, Bool.or_eq_true, beq_iff_eq, List.mem_cons, List.not_mem_nil, or_false,
    or_assoc]

/-- Numbers without a point and with one. -/
theorem isNumber_iff {text : List Char} :
    IsNumber text ↔ Shape.Reads .whole text ∨ Shape.Reads .places text := by
  simp only [IsNumber, TokenKind.digit_iff]
  constructor
  · rintro ⟨whole, places, hwhole, hplaces, hne, rfl | rfl⟩
    · exact .inl ⟨hne, List.forall_mem_append.mpr ⟨hwhole, hplaces⟩⟩
    · exact .inr ⟨whole, places, hwhole, hplaces, hne, rfl⟩
  · rintro (⟨hne, h⟩ | ⟨whole, places, hwhole, hplaces, hne, rfl⟩)
    · exact ⟨text, [], h, by simp, by simpa using hne, .inl (List.append_nil _).symm⟩
    · exact ⟨whole, places, hwhole, hplaces, hne, .inr rfl⟩

/-- **The two patterns of numbers** match digits with at most one point and at least one digit. -/
theorem mem_number {text : List Char} : text ∈ TokenKind.number.pattern ↔ IsNumber text := by
  simp only [TokenKind.pattern, Language.mem_add, Language.mem_mul, TokenKind.mem_run,
    TokenKind.mem_kstar_single, TokenKind.mem_singleton, Language.mem_one]
  constructor
  · rintro (⟨_, ⟨whole, ⟨hne, hwhole⟩, point, hpoint, rfl⟩, places, hplaces, rfl⟩ |
      ⟨point, rfl, places, ⟨hne, hplaces⟩, rfl⟩)
    · refine ⟨whole, places, hwhole, hplaces, by simp [hne], ?_⟩
      rcases hpoint with rfl | rfl
      · exact .inl (by simp)
      · exact .inr (by simp)
    · exact ⟨[], places, by simp, hplaces, hne, .inr rfl⟩
  · rintro ⟨whole, places, hwhole, hplaces, hne, htext⟩
    cases whole with
    | nil =>
      rcases htext with rfl | rfl
      · exact .inl ⟨_, ⟨_, ⟨hne, hplaces⟩, [], .inl rfl, List.append_nil _⟩, [], by simp,
          List.append_nil _⟩
      · exact .inr ⟨['.'], rfl, places, ⟨hne, hplaces⟩, rfl⟩
    | cons c cs =>
      refine .inl ?_
      rcases htext with rfl | rfl
      · exact ⟨c :: cs, ⟨c :: cs, ⟨by simp, hwhole⟩, [], .inl rfl, List.append_nil _⟩, places,
          hplaces, rfl⟩
      · exact ⟨c :: cs ++ ['.'], ⟨c :: cs, ⟨by simp, hwhole⟩, ['.'], .inr rfl, rfl⟩, places,
          hplaces, by simp⟩

/-! ### Marks -/

/-- A kind of tokens that are one character each. -/
def IsMark (kind : TokenKind) : Prop :=
  kind ≠ .layout ∧ kind ≠ .number ∧ kind ≠ .name ∧ kind ≠ .symbol

theorem mem_pattern_kindOfChar (c : Char) : Shape.kindOfChar c ≠ .symbol →
    [c] ∈ (Shape.kindOfChar c).pattern ∧ IsMark (Shape.kindOfChar c) ∧
      Shape.ofChar c = .single (Shape.kindOfChar c) := by
  unfold Shape.kindOfChar
  split <;> intro h
  all_goals first
    | exact ⟨rfl, by simp [IsMark], rfl⟩
    | exact ⟨⟨_, by simp, rfl⟩, by simp [IsMark], rfl⟩
    | exact absurd rfl h

/-- **The pattern of a mark** matches the characters that are such a mark. -/
theorem mem_pattern_of_isMark {kind : TokenKind} (hkind : IsMark kind) {text : List Char} :
    text ∈ kind.pattern ↔ ∃ c, Shape.kindOfChar c = kind ∧ text = [c] := by
  constructor
  · intro h
    obtain ⟨hlayout, hnumber, hname, hsymbol⟩ := hkind
    cases kind with
    | opening | closing =>
      obtain ⟨c, hc, rfl⟩ := h
      simp only [List.mem_cons, List.not_mem_nil, or_false] at hc
      rcases hc with rfl | rfl | rfl <;> exact ⟨_, rfl, rfl⟩
    | layout | number | name | symbol => contradiction
    | _ => exact ⟨_, rfl, h⟩
  · rintro ⟨c, rfl, rfl⟩
    exact (mem_pattern_kindOfChar c hkind.2.2.2).1

theorem ofChar_eq_single_iff {c : Char} {kind : TokenKind} (hkind : IsMark kind) :
    Shape.ofChar c = .single kind ↔ Shape.kindOfChar c = kind := by
  refine ⟨Shape.kindOfChar_eq_of_ofChar, ?_⟩
  rintro rfl
  exact (mem_pattern_kindOfChar c hkind.2.2.2).2.2

/-- A mark or a symbol has a kind of its own. -/
theorem isMark_of_ofChar {c : Char} {kind : TokenKind} (h : Shape.ofChar c = .single kind) :
    IsMark kind ∨ kind = .symbol := by
  obtain rfl := Shape.kindOfChar_eq_of_ofChar h
  by_cases hsymbol : Shape.kindOfChar c = .symbol
  · exact .inr hsymbol
  · exact .inl (mem_pattern_kindOfChar c hsymbol).2.1

/-! ### What is spelt -/

/-- A text with the kind of a longer token has its shape. -/
theorem Shape.Reads.ne_single {shape : Shape} {text : List Char} (h : shape.Reads text)
    (hmark : ¬ IsMark shape.kind) (hsymbol : shape.kind ≠ .symbol) (kind : TokenKind) :
    shape ≠ .single kind := by
  rintro rfl
  obtain ⟨c, hc, -⟩ := h
  exact (isMark_of_ofChar hc).elim hmark hsymbol

/-- **Every pattern but that of symbols** matches the texts of the shapes of its kind. -/
theorem mem_pattern_iff {kind : TokenKind} (hkind : kind ≠ .symbol) {text : List Char} :
    text ∈ kind.pattern ↔ ∃ shape : Shape, shape.Reads text ∧ shape.kind = kind := by
  by_cases hmark : IsMark kind
  · rw [mem_pattern_of_isMark hmark]
    constructor
    · rintro ⟨c, hc, rfl⟩
      exact ⟨.single kind, ⟨c, (ofChar_eq_single_iff hmark).mpr hc, rfl⟩, rfl⟩
    · rintro ⟨shape, hshape, rfl⟩
      cases shape with
      | single kind =>
        obtain ⟨c, hc, rfl⟩ := hshape
        exact ⟨c, Shape.kindOfChar_eq_of_ofChar hc, rfl⟩
      | _ => exact absurd hmark (by simp [IsMark, Shape.kind])
  · constructor
    · intro h
      cases kind with
      | layout =>
        obtain ⟨hne, h⟩ := TokenKind.mem_run.mp h
        exact ⟨.layout, ⟨hne, fun c hc => isLayout_iff.mpr (h c hc)⟩, rfl⟩
      | name =>
        obtain ⟨hne, h⟩ := TokenKind.mem_run.mp h
        exact ⟨.letters, ⟨hne, fun c hc => TokenKind.letter_iff.mp (h c hc)⟩, rfl⟩
      | number =>
        rcases isNumber_iff.mp (mem_number.mp h) with h | h
        · exact ⟨.whole, h, rfl⟩
        · exact ⟨.places, h, rfl⟩
      | symbol => contradiction
      | _ => exact absurd (by simp [IsMark]) hmark
    · rintro ⟨shape, h, rfl⟩
      cases shape with
      | layout => exact TokenKind.mem_run.mpr ⟨h.1, fun c hc => isLayout_iff.mp (h.2 c hc)⟩
      | letters =>
        exact TokenKind.mem_run.mpr ⟨h.1, fun c hc => TokenKind.letter_iff.mpr (h.2 c hc)⟩
      | whole => exact mem_number.mpr (isNumber_iff.mpr (.inl h))
      | places => exact mem_number.mpr (isNumber_iff.mpr (.inr h))
      | point => contradiction
      | single kind => exact absurd rfl (h.ne_single hmark hkind kind)

/-- A text has at most one shape. -/
theorem Shape.Reads.unique {shape other : Shape} {text : List Char} (h : shape.Reads text)
    (h' : other.Reads text) : shape = other :=
  Option.some.inj ((Shape.ofText?_of_reads h).symm.trans (Shape.ofText?_of_reads h'))

/-- **A text spells the kind of its shape.** -/
theorem spells_iff {kind : TokenKind} {text : List Char} :
    Spells kind text ↔ ∃ shape : Shape, shape.Reads text ∧ shape.kind = kind := by
  by_cases hkind : kind = .symbol
  · subst hkind
    constructor
    · rintro ⟨⟨c, -, rfl⟩, hother⟩
      refine ⟨Shape.ofChar c, Shape.reads_ofChar c, ?_⟩
      by_contra hne
      exact hne (hother rfl _ ((mem_pattern_iff hne).mpr ⟨_, Shape.reads_ofChar c, rfl⟩))
    · rintro ⟨shape, hshape, hsymbol⟩
      refine ⟨?_, fun _ other hother => ?_⟩
      · cases shape with
        | point => exact ⟨'.', by decide, hshape⟩
        | single kind =>
          obtain ⟨c, hc, rfl⟩ := hshape
          refine ⟨c, ?_, rfl⟩
          rintro rfl
          cases hc
        | _ => cases hsymbol
      · by_contra hne
        obtain ⟨shape', hshape', hkind⟩ := (mem_pattern_iff hne).mp hother
        rw [← hkind, hshape'.unique hshape] at hne
        exact hne hsymbol
  · rw [Spells, mem_pattern_iff hkind]
    exact and_iff_left fun h => absurd h hkind

/-- Some pattern matches the texts that have a shape. -/
theorem exists_mem_pattern_iff {text : List Char} :
    (∃ kind : TokenKind, text ∈ kind.pattern) ↔ ∃ shape : Shape, shape.Reads text := by
  constructor
  · rintro ⟨kind, h⟩
    by_cases hkind : kind = .symbol
    · subst hkind
      obtain ⟨c, -, rfl⟩ := h
      exact ⟨_, Shape.reads_ofChar c⟩
    · obtain ⟨shape, hshape, -⟩ := (mem_pattern_iff hkind).mp h
      exact ⟨shape, hshape⟩
  · rintro ⟨shape, h⟩
    exact ⟨shape.kind, (spells_iff.mpr ⟨shape, h, rfl⟩).1⟩

end Token

end SymbolicAlgebra
