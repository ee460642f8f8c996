import SymbolicAlgebra.Proofs.Double.Text
import SymbolicAlgebra.Proofs.Reader.Operation

/-! # Tokens of a text

The tokens of a text are the text, cut into pieces that are as long as possible. Every number among
them spells a double, so no reader of a text meets a number that it cannot read. -/

namespace SymbolicAlgebra

open Reader (Operation)

/-! ### Numbers -/

namespace Double

/-- Digits before and after a point are read. -/
theorem readUnsigned_places {whole places : List Char} (hwhole : ∀ c ∈ whole, c.isDigit = true)
    (hplaces : ∀ c ∈ places, c.isDigit = true) (hne : whole ++ places ≠ []) :
    ∃ x, readUnsigned (whole ++ '.' :: places) = some x := by
  have htake : (whole ++ '.' :: places).takeWhile Char.isDigit = whole := by
    rw [List.takeWhile_append_of_pos hwhole]
    exact List.append_nil whole
  have hdrop : (whole ++ '.' :: places).dropWhile Char.isDigit = '.' :: places := by
    rw [List.dropWhile_append_of_pos hwhole]
    rfl
  have hsome : (whole.isEmpty && places.isEmpty) = false := by
    rw [ne_eq, List.append_eq_nil_iff, ← List.isEmpty_iff, ← List.isEmpty_iff,
      ← Bool.and_eq_true, Bool.not_eq_true] at hne
    exact hne
  unfold readUnsigned
  simp only [htake, hdrop, List.takeWhile_eq_self_iff.mpr hplaces,
    List.dropWhile_eq_nil_iff.mpr hplaces, hsome, Bool.false_eq_true, if_false]
  split_ifs <;> exact ⟨_, rfl⟩

/-- **Every number that can be typed is read.** -/
theorem read_number {text : List Char} (h : Token.IsNumber text) : ∃ x, read text = some x := by
  rcases Token.isNumber_iff.mp h with ⟨hne, hdigits⟩ | ⟨whole, places, hwhole, hplaces, hne, rfl⟩
  · exact read_decimal ⟨text, hne, hdigits, .inl rfl⟩
  · cases whole with
    | nil => exact readUnsigned_places hwhole hplaces hne
    | cons c cs =>
      exact read_decimal ⟨c :: cs, List.cons_ne_nil _ _, hwhole, .inr ⟨places, hplaces, rfl⟩⟩

end Double

/-- The numbers among the tokens of a text are digits with at most one point. -/
theorem Token.isNumber_of_mem_scan {text : List Char} {t : Token} (ht : t ∈ scan text)
    (hkind : t.kind = .number) : IsNumber t.lexeme := by
  have hspells := (munches_scan text).spells t ht
  rw [hkind] at hspells
  exact mem_number.mp hspells.1

/-- A number that is read is a constant. -/
theorem Read.number_eq {t : Token} {x : Float} (h : Double.read t.lexeme = some x) (r : Reader) :
    Read.number t r = .done (.const x) r := by
  have hread : (Numeral.read t.lexeme : Option Float) = some x := h
  unfold Read.number
  rw [hread]
  rfl

/-- A fault that fits a text is not about a number. -/
theorem Fault.Fits.ne_invalidNumber {text : List Char} {fault : Fault}
    (h : fault.Fits Float text (Reader.ofChars text).ahead) (lexeme : String) :
    fault.cause ≠ .invalidNumber lexeme := by
  intro hcause
  obtain ⟨t, ht, hkind, hread⟩ := h.unread hcause
  have hmem := (Reader.ahead_sublist text).subset ht
  obtain ⟨x, hx⟩ := Double.read_number (Token.isNumber_of_mem_scan hmem hkind)
  have hsome : (Numeral.read t.lexeme : Option Float) = some x := hx
  rw [hread] at hsome
  cases hsome

/-! ### Everything about tokens -/

/-- **Tokens lose nothing and are as long as possible.** The tokens of any text are not empty, fill
it from its start to its end without gaps, have spans inside it that cover their characters, and put
together are the text. Each is the longest start of the rest that some pattern matches, of the kind
that it spells, and no other tokens are. Every number is digits with at most one point and at least
one digit and has a value, so neither parsing the text nor any other sequence of operations on its
reader ever meets a number that it cannot read. -/
theorem scan_lossless_longest (text : List Char) :
    ((∀ t ∈ Token.scan text, t.lexeme ≠ []) ∧
      Token.Fills 0 (Token.scan text) (String.ofList text).utf8ByteSize ∧
      (∀ t ∈ Token.scan text, t.span.Inside text ∧ Text.Covers text t.span t.lexeme) ∧
      (Token.scan text).flatMap Token.lexeme = text) ∧
    (∀ tokens, Token.Munches 0 text tokens ↔ tokens = Token.scan text) ∧
    (∀ t ∈ Token.scan text, t.kind = .number →
      Token.IsNumber t.lexeme ∧ ∃ x : Float, ∀ r, Read.number t r = .done (.const x) r) ∧
    (∀ (fault : Fault) (lexeme : String), Expr.parseChars (α := Float) text = .error fault →
      fault.cause ≠ .invalidNumber lexeme) ∧
    ∀ (ops : List Operation) (lexeme : String),
      ∀ fault ∈ Operation.faults Float ops (Reader.ofChars text),
        fault.cause ≠ .invalidNumber lexeme := by
  have hmunches := Token.munches_scan text
  have hfills := hmunches.fills
  have hpieces := hmunches.pieces (List.nil_append text).symm rfl
  rw [Nat.zero_add, Text.bytes_eq] at hfills
  refine ⟨⟨hmunches.ne_nil, hfills, fun t ht => ⟨(hpieces t ht).inside, hpieces t ht⟩,
    hmunches.flatMap_lexeme⟩, fun tokens => Token.munches_iff, fun t ht hkind => ?_, ?_, ?_⟩
  · have hnumber := Token.isNumber_of_mem_scan ht hkind
    obtain ⟨x, hx⟩ := Double.read_number hnumber
    exact ⟨hnumber, x, Read.number_eq hx⟩
  · exact fun fault lexeme h => (Expr.parseChars_fits h).ne_invalidNumber lexeme
  · intro ops lexeme fault h
    exact (Operation.faults_fit ops (Reader.over_ofChars text) fault h).ne_invalidNumber lexeme

end SymbolicAlgebra
