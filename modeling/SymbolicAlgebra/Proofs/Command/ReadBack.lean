import SymbolicAlgebra.Command
import SymbolicAlgebra.Proofs.Double.Literal
import SymbolicAlgebra.Proofs.Expr.Evaluate
import SymbolicAlgebra.Proofs.Text.Words

/-! # Commands are read back

How a line *writes* a command: an expression, with words before it that say what to do with it, and
after it perhaps the values of variables, all with blanks between. A line is taken apart into a
command exactly if it writes that command (`writes_of_parseSlice_eq_ok`,
`parseSlice_eq_ok_of_writes`), so whatever is written is read back, with the place at which the
expression was written, and nothing else is read. -/

namespace SymbolicAlgebra

open Text (Blanks Word Trimmed Breaks isBlank isLetter)

deriving instance DecidableEq for Action, Command

/-- Numbers that can be listed: a text that spells one is a word without commas. -/
class ListableNumeral (α : Type) [Numeral α] : Prop where
  word_of_read {text : List Char} {x : α} : Numeral.read text = some x → Word text
  comma_notMem_of_read {text : List Char} {x : α} : Numeral.read text = some x → ',' ∉ text

instance : ListableNumeral Float where
  word_of_read {text x} h := by
    refine ⟨?_, fun c hc => Double.isBlank_of_isLiteral (Double.isLiteral_of_read h c hc)⟩
    rintro rfl
    cases h
  comma_notMem_of_read h hc := Double.ne_comma_of_isLiteral (Double.isLiteral_of_read h _ hc) rfl

namespace Command

variable {α : Type}

/-! ### How commands are written -/

/-- **A binding**: a letter, an equals sign and the text of a number, with blanks around each. -/
inductive Binds [Numeral α] : List Char → Char × α → Prop
  | intro {b₀ b₁ b₂ b₃ text : List Char} {v : Char} {x : α} :
      Blanks b₀ → Blanks b₁ → Blanks b₂ → Blanks b₃ → isLetter v = true →
        Numeral.read text = some x →
        Binds (b₀ ++ [v] ++ b₁ ++ '=' :: (b₂ ++ text ++ b₃)) (v, x)

/-- **Bindings**: one or more, with commas between. -/
inductive BindsAll [Numeral α] : List Char → List (Char × α) → Prop
  | one {text : List Char} {b : Char × α} : Binds text b → BindsAll text [b]
  | cons {text rest : List Char} {b : Char × α} {bs : List (Char × α)} :
      Binds text b → BindsAll rest bs → BindsAll (text ++ ',' :: rest) (b :: bs)

/-- **The text before an expression**: the words given, each after blanks or at the start, and with
a blank behind it. -/
inductive Lead : List (List Char) → List Char → Prop
  | nil {blanks : List Char} : Blanks blanks → Lead [] blanks
  | cons {blanks word rest : List Char} {words : List (List Char)} :
      Blanks blanks → rest ≠ [] → Breaks rest → Lead words rest →
        Lead (word :: words) (blanks ++ word ++ rest)

/-- **What an evaluation is written with**: the expression, in which the separator does not occur,
and after it nothing, or the separator and the bindings. -/
inductive Evaluates [Numeral α] : Action α → List Char → List Char → Prop
  | unbound {expr tail : List Char} :
      ¬separatorWord <:+: expr → Blanks tail → Evaluates (.evaluate []) expr tail
  | bound {expr blanks text : List Char} {bs : List (Char × α)} :
      ¬separatorWord <:+: expr → Blanks blanks → BindsAll text bs →
        Evaluates (.evaluate bs) expr (blanks ++ separatorWord ++ text)

/-- **What a command is written with**: its name, its action, the further words before the
expression, the expression, and what comes after it. -/
inductive Form [Numeral α] :
    String → Action α → List (List Char) → List Char → List Char → Prop
  | latex {expr tail : List Char} : Blanks tail → Form "latex" (.render .latex) [] expr tail
  | plain {expr tail : List Char} : Blanks tail → Form "plain" (.render .plain) [] expr tail
  | vars {expr tail : List Char} : Blanks tail → Form "vars" .vars [] expr tail
  | diff {expr tail : List Char} {v : Char} :
      isLetter v = true → Blanks tail → Form "diff" (.differentiate v) [[v]] expr tail
  | eval {action : Action α} {expr tail : List Char} :
      Evaluates action expr tail → Form "eval" action [] expr tail

/-- **The line writes the command**: an expression that does not start with a colon is to be shown,
with annotations; after a colon comes the name of what to do. -/
inductive Writes [Numeral α] : List Char → Command α → Prop
  | bare {before expr after : List Char} :
      Trimmed expr → expr.head? ≠ some ':' → Blanks before → Blanks after →
        Writes (before ++ expr ++ after) ⟨.render .annotated, ⟨Text.bytes before, expr⟩⟩
  | named {name : String} {action : Action α} {words : List (List Char)}
      {lead expr tail : List Char} :
      Trimmed expr → Form name action words expr tail → Lead ((':' :: name.toList) :: words) lead →
        Writes (lead ++ expr ++ tail) ⟨action, ⟨Text.bytes lead, expr⟩⟩

/-- The names of commands are words. -/
theorem Form.word [Numeral α] {name : String} {action : Action α} {words : List (List Char)}
    {expr tail : List Char} (h : Form name action words expr tail) :
    Word (':' :: name.toList) := by
  cases h <;> exact .of_all (List.cons_ne_nil _ _) (by decide)

/-! ### The words before an expression -/

/-- The expression stands in the slice after the words and before the tail. -/
def Follows (words : List (List Char)) (s expr : Slice) (tail : List Char) : Prop :=
  ∃ lead, Lead words lead ∧ s.Between lead expr tail

variable {s expr rest name : Slice} {words : List (List Char)} {tail : List Char}

theorem follows_nil_iff :
    Follows [] s expr tail ↔ ∃ before, Blanks before ∧ s.Between before expr tail := by
  constructor
  · rintro ⟨_, ⟨hblanks⟩, hs⟩
    exact ⟨_, hblanks, hs⟩
  · rintro ⟨_, hblanks, hs⟩
    exact ⟨_, .nil hblanks, hs⟩

/-- **One word more**: it is the first word of the slice, and the others come in the rest. -/
theorem follows_cons_iff {w : List Char} (hw : Word w) (hexpr : Trimmed expr.text) :
    Follows (w :: words) s expr tail ↔
      ∃ word rest, s.word? = some (word, rest) ∧ word.text = w ∧ Follows words rest expr tail := by
  constructor
  · rintro ⟨_, hlead, hs⟩
    cases hlead with
    | @cons blanks _ lead _ hblanks hne hbreaks hlead =>
      let word : Slice := ⟨s.start + Text.bytes blanks, w⟩
      let rest : Slice := ⟨word.stop, lead ++ expr.text ++ tail⟩
      have hrest : Breaks rest.text := by
        have hhead : rest.text.head? = lead.head? := by
          simp only [rest, List.append_assoc, List.head?_append_of_ne_nil _ hne]
        rwa [Breaks, hhead]
      refine ⟨word, rest, Slice.word?_eq_some_iff.mpr ⟨blanks, hblanks, ⟨?_, rfl⟩, rfl, hw, hrest⟩,
        rfl, lead, hlead, rfl, ?_⟩
      · rw [hs.text]
        simp only [List.append_assoc, word, rest]
      · rw [hs.start, Text.bytes_append, Text.bytes_append, ← Nat.add_assoc, ← Nat.add_assoc]
        rfl
  · rintro ⟨word, rest, hword, rfl, lead, hlead, hrest⟩
    obtain ⟨before, hbefore, hs, hstart, -, hbreaks⟩ := Slice.word?_eq_some_iff.mp hword
    have hne : lead ≠ [] := by
      -- otherwise the expression starts where the word stops, with a blank
      rintro rfl
      obtain ⟨c, cs, hcons⟩ := List.exists_cons_of_ne_nil hexpr.ne_nil
      have hblank := hbreaks c (by rw [hrest.text, hcons]; rfl)
      rw [hexpr.head c (by rw [hcons]; rfl)] at hblank
      cases hblank
    rw [Breaks, hrest.text, List.append_assoc, List.head?_append_of_ne_nil _ hne] at hbreaks
    refine ⟨_, .cons hbefore hne hbreaks hlead, ?_, ?_⟩
    · rw [hs.text, hrest.text]
      simp only [List.append_assoc]
    · rw [hrest.start, hstart, Slice.stop, hs.start, Text.bytes_append, Text.bytes_append]
      simp only [Nat.add_assoc]

/-! ### Expressions -/

theorem expression_eq_ok_iff {usage : String} {span : Span} :
    expression usage span rest = .ok expr ↔
      Trimmed expr.text ∧ ∃ tail, Blanks tail ∧ Follows [] rest expr tail := by
  unfold expression
  simp only
  constructor
  · intro h
    split_ifs at h with hempty
    obtain rfl := Except.ok.inj h
    have htrimmed := Slice.trimmed_trim (s := rest) (by simpa using hempty)
    obtain ⟨before, after, hbefore, hafter, hrest⟩ := (Slice.trim_eq_iff htrimmed).mp rfl
    exact ⟨htrimmed, after, hafter, follows_nil_iff.mpr ⟨before, hbefore, hrest⟩⟩
  · rintro ⟨htrimmed, after, hafter, hfollows⟩
    obtain ⟨before, hbefore, hrest⟩ := follows_nil_iff.mp hfollows
    rw [(Slice.trim_eq_iff htrimmed).mpr ⟨before, after, hbefore, hafter, hrest⟩, if_neg]
    simpa using htrimmed.ne_nil

theorem simple_eq_ok_iff {action : Action α} {usage : String} {command : Command α} :
    simple action usage name rest = .ok command ↔
      action = command.action ∧ Trimmed command.expr.text ∧
        ∃ tail, Blanks tail ∧ Follows [] rest command.expr tail := by
  rw [simple, bind_eq_ok_iff]
  simp only [expression_eq_ok_iff]
  constructor
  · rintro ⟨expr, hexpr, ⟨⟩⟩
    exact ⟨rfl, hexpr⟩
  · rintro ⟨rfl, hexpr⟩
    exact ⟨_, hexpr, rfl⟩

theorem word_of_isLetter {v : Char} (hv : isLetter v = true) : Word [v] :=
  ⟨List.cons_ne_nil v [], List.forall_mem_singleton.mpr (Text.isBlank_of_isLetter hv)⟩

theorem letter?_eq_some_iff {text : List Char} {v : Char} :
    letter? text = some v ↔ text = [v] ∧ isLetter v = true := by
  unfold letter?
  split
  · next c =>
    rw [Option.ite_none_right_eq_some]
    constructor
    · rintro ⟨hc, ⟨⟩⟩
      exact ⟨rfl, hc⟩
    · rintro ⟨⟨⟩, hc⟩
      exact ⟨hc, rfl⟩
  · next hnot => exact iff_of_false (by simp) fun h => hnot v h.1

theorem differentiate_eq_ok_iff {command : Command α} :
    differentiate name rest = .ok command ↔
      ∃ v, isLetter v = true ∧ command.action = .differentiate v ∧ Trimmed command.expr.text ∧
        ∃ tail, Blanks tail ∧ Follows [[v]] rest command.expr tail := by
  unfold differentiate
  simp only
  constructor
  · intro h
    split at h
    · cases h
    · next word after hword =>
      split at h
      · cases h
      · next v hv =>
        obtain ⟨expr, hexpr, ⟨⟩⟩ := bind_eq_ok_iff.mp h
        obtain ⟨htrimmed, tail, htail, hfollows⟩ := expression_eq_ok_iff.mp hexpr
        obtain ⟨hword', hv⟩ := letter?_eq_some_iff.mp hv
        refine ⟨v, hv, rfl, htrimmed, tail, htail, ?_⟩
        exact (follows_cons_iff (word_of_isLetter hv) htrimmed).mpr
          ⟨word, after, hword, hword', hfollows⟩
  · rintro ⟨v, hv, haction, htrimmed, tail, htail, hfollows⟩
    obtain ⟨word, after, hword, hword', hfollows⟩ :=
      (follows_cons_iff (word_of_isLetter hv) htrimmed).mp hfollows
    have hexpr : expression ":diff <var> <expr>" word.span after = .ok command.expr :=
      expression_eq_ok_iff.mpr ⟨htrimmed, tail, htail, hfollows⟩
    rw [hword]
    simp only [letter?_eq_some_iff.mpr ⟨hword', hv⟩]
    rw [hexpr, ← haction]
    rfl

/-! ### Bindings -/

section Bindings

variable [Numeral α] {text blanks : List Char} {b : Char × α} {bs : List (Char × α)}

theorem Binds.append_blanks (h : Binds text b) (hblanks : Blanks blanks) :
    Binds (text ++ blanks) b := by
  cases h with
  | intro h₀ h₁ h₂ h₃ hv hx =>
    have h := Binds.intro h₀ h₁ h₂ (h₃.append hblanks) hv hx
    simpa only [List.append_assoc, List.cons_append] using h

theorem BindsAll.append_blanks (h : BindsAll text bs) (hblanks : Blanks blanks) :
    BindsAll (text ++ blanks) bs := by
  induction h with
  | one hb => exact .one (hb.append_blanks hblanks)
  | cons hb _ ih =>
    rw [List.append_assoc, List.cons_append]
    exact .cons hb ih

variable [ListableNumeral α]

/-- Without the blanks at its end, a binding ends with the text of its number. -/
theorem Binds.exists_end (h : Binds text b) :
    ∃ front blanks, Blanks blanks ∧ text = front ++ blanks ∧ Binds front b ∧ front ≠ [] ∧
      ∀ c ∈ front.getLast?, isBlank c = false := by
  cases h with
  | @intro b₀ b₁ b₂ b₃ value v x h₀ h₁ h₂ h₃ hv hx =>
    have hvalue := (ListableNumeral.word_of_read hx).trimmed
    refine ⟨_, b₃, h₃, ?_, .intro h₀ h₁ h₂ .nil hv hx, by simp, ?_⟩
    · simp
    · have hlast : (b₀ ++ [v] ++ b₁ ++ '=' :: (b₂ ++ value ++ [])).getLast? = value.getLast? := by
        rw [List.append_nil, List.getLast?_append_of_ne_nil _ (by simp), ← List.cons_append,
          List.getLast?_append_of_ne_nil _ hvalue.ne_nil]
      rw [hlast]
      exact hvalue.last

theorem BindsAll.exists_end (h : BindsAll text bs) :
    ∃ front blanks, Blanks blanks ∧ text = front ++ blanks ∧ BindsAll front bs ∧ front ≠ [] ∧
      ∀ c ∈ front.getLast?, isBlank c = false := by
  induction h with
  | one hb =>
    obtain ⟨front, blanks, hblanks, htext, hfront, hne, hlast⟩ := hb.exists_end
    exact ⟨front, blanks, hblanks, htext, .one hfront, hne, hlast⟩
  | @cons text rest b bs hb _ ih =>
    obtain ⟨front, blanks, hblanks, rfl, hfront, hne, hlast⟩ := ih
    refine ⟨text ++ ',' :: front, blanks, hblanks, by simp, .cons hb hfront, by simp, ?_⟩
    have hsame : (text ++ ',' :: front).getLast? = front.getLast? := by
      rw [List.append_cons, List.getLast?_append_of_ne_nil _ hne]
    rwa [hsame]

theorem Binds.comma_notMem (h : Binds text b) : ',' ∉ text := by
  have hblanks {b : List Char} (h : Blanks b) : ',' ∉ b := fun hc => absurd (h _ hc) (by decide)
  cases h with
  | @intro _ _ _ _ _ v _ h₀ h₁ h₂ h₃ hv hx =>
    have hne : ',' ≠ v := by
      rintro rfl
      exact absurd hv (by decide +kernel)
    simp [hblanks h₀, hblanks h₁, hblanks h₂, hblanks h₃, hne,
      ListableNumeral.comma_notMem_of_read hx]

theorem binding?_eq_some_iff {piece : Slice} : binding? piece = some b ↔ Binds piece.text b := by
  have hletter {v : Char} (hv : isLetter v = true) : Trimmed [v] := (word_of_isLetter hv).trimmed
  unfold binding?
  constructor
  · intro h
    obtain ⟨⟨name, value⟩, hsplit, h⟩ := Option.bind_eq_some_iff.mp h
    obtain ⟨v, hname, h⟩ := Option.bind_eq_some_iff.mp h
    obtain ⟨x, hx, ⟨⟩⟩ := Option.bind_eq_some_iff.mp h
    obtain ⟨hname, hv⟩ := letter?_eq_some_iff.mp hname
    obtain ⟨hpiece, -, -⟩ := Slice.splitOnce?_eq_some_iff.mp hsplit
    obtain ⟨b₀, b₁, h₀, h₁, hname⟩ := (Slice.text_trim_eq_iff (hletter hv)).mp hname
    have hvalue := (ListableNumeral.word_of_read hx).trimmed
    obtain ⟨b₂, b₃, h₂, h₃, hvalue⟩ := (Slice.text_trim_eq_iff hvalue).mp rfl
    rw [hpiece.text, List.nil_append, hname, hvalue]
    exact .intro h₀ h₁ h₂ h₃ hv hx
  · intro h
    generalize htext : piece.text = text at h
    cases h with
    | @intro b₀ b₁ b₂ b₃ number v x h₀ h₁ h₂ h₃ hv hx =>
      let name : Slice := ⟨piece.start, b₀ ++ [v] ++ b₁⟩
      let value : Slice := ⟨name.stop + '='.utf8Size, b₂ ++ number ++ b₃⟩
      have hnot : '=' ∉ name.text := by
        have hblanks {b : List Char} (h : Blanks b) : '=' ∉ b :=
          fun hc => absurd (h _ hc) (by decide)
        have hne : '=' ≠ v := by
          rintro rfl
          exact absurd hv (by decide +kernel)
        simp [name, hblanks h₀, hblanks h₁, hne]
      have hsplit : piece.splitOnce? '=' = some (name, value) :=
        Slice.splitOnce?_eq_some_iff.mpr ⟨⟨htext, rfl⟩, rfl, hnot⟩
      have hname : name.trim.text = [v] :=
        (Slice.text_trim_eq_iff (hletter hv)).mpr ⟨b₀, b₁, h₀, h₁, rfl⟩
      have hvalue : value.trim.text = number :=
        (Slice.text_trim_eq_iff (ListableNumeral.word_of_read hx).trimmed).mpr ⟨b₂, b₃, h₂, h₃, rfl⟩
      simp [hsplit, hname, hvalue, hx, letter?_eq_some_iff.mpr ⟨rfl, hv⟩]

theorem bindings_cons_eq_ok_iff {piece : Slice} {pieces : List Slice} :
    bindings (piece :: pieces) = .ok bs ↔
      ∃ b bs', Binds piece.text b ∧ bindings pieces = .ok bs' ∧ b :: bs' = bs := by
  rw [bindings]
  constructor
  · intro h
    split at h
    · cases h
    · next b hb =>
      obtain ⟨bs', hbs', ⟨⟩⟩ := bind_eq_ok_iff.mp h
      exact ⟨b, bs', binding?_eq_some_iff.mp hb, hbs', rfl⟩
  · rintro ⟨b, bs', hb, hbs', rfl⟩
    simp only [binding?_eq_some_iff.mpr hb, hbs']
    rfl

/-- **Bindings are read back**, piece by piece. -/
theorem bindings_eq_ok_iff : bindings (s.pieces ',') = .ok bs ↔ BindsAll s.text bs := by
  constructor
  · intro h
    induction hn : s.text.length using Nat.strong_induction_on generalizing s bs with
    | _ n ih =>
      rcases hsplit : s.splitOnce? ',' with _ | ⟨before, after⟩
      · rw [Slice.pieces_of_splitOnce?_eq_none hsplit, bindings_cons_eq_ok_iff] at h
        obtain ⟨b, _, hb, ⟨⟩, rfl⟩ := h
        exact .one hb
      · rw [Slice.pieces_of_splitOnce?_eq_some hsplit, bindings_cons_eq_ok_iff] at h
        obtain ⟨b, bs, hb, hbs, rfl⟩ := h
        obtain ⟨hs, -, -⟩ := Slice.splitOnce?_eq_some_iff.mp hsplit
        rw [hs.text, List.nil_append] at hn ⊢
        refine .cons hb (ih _ ?_ hbs rfl)
        rw [← hn, List.length_append, List.length_cons]
        omega
  · intro h
    generalize htext : s.text = text at h
    induction h generalizing s with
    | one hb =>
      have hnone : s.splitOnce? ',' = none :=
        Slice.splitOnce?_eq_none_iff.mpr (htext ▸ hb.comma_notMem)
      rw [Slice.pieces_of_splitOnce?_eq_none hnone, bindings_cons_eq_ok_iff]
      exact ⟨_, [], htext ▸ hb, rfl, rfl⟩
    | @cons text rest b bs hb _ ih =>
      let before : Slice := ⟨s.start, text⟩
      let after : Slice := ⟨before.stop + ','.utf8Size, rest⟩
      have hsome : s.splitOnce? ',' = some (before, after) :=
        Slice.splitOnce?_eq_some_iff.mpr ⟨⟨htext, rfl⟩, rfl, hb.comma_notMem⟩
      rw [Slice.pieces_of_splitOnce?_eq_some hsome, bindings_cons_eq_ok_iff]
      exact ⟨b, bs, hb, ih rfl, rfl⟩

end Bindings

variable [Numeral α] [ListableNumeral α] {command : Command α}

/-- The word before the bindings does not overlap itself. -/
theorem indexOf?_separatorWord_eq_some_iff {text : List Char} {n : Nat} :
    Text.indexOf? separatorWord text = some n ↔
      ∃ before after, text = before ++ (separatorWord ++ after) ∧ before.length = n ∧
        ¬separatorWord <:+: before :=
  Text.indexOf?_eq_some_iff (c := 'w') (by decide)

theorem word_separatorWord : Word separatorWord := .of_all (by decide) (by decide)

/-- **Cutting at the separator**: the part before it without the blanks at its end, and the part
after it. -/
theorem cut_at_separator {whole : Slice} {before after : List Char}
    (h : whole.text = before ++ (separatorWord ++ after)) :
    (whole.take before.length).dropEndWhile isBlank = ⟨whole.start, before.rdropWhile isBlank⟩ ∧
      (whole.drop (before.length + separatorWord.length)).text = after := by
  constructor
  · simp [Slice.dropEndWhile, Slice.take, h, List.rdropWhile]
  · simp [Slice.drop, h, ← List.drop_drop]

/-- **An expression and what to evaluate it with**: everything before the first separator, apart
from the blanks at its end, is the expression, and the bindings after it reach to the end. -/
theorem evaluates_of_evaluate_eq_ok (h : evaluate name rest = .ok command) :
    Trimmed command.expr.text ∧ ∃ tail, Evaluates command.action command.expr.text tail ∧
      Follows [] rest command.expr tail := by
  obtain ⟨whole, hwhole, h⟩ := bind_eq_ok_iff.mp h
  obtain ⟨htrimmed, tail, htail, lead, hlead, hrest⟩ := expression_eq_ok_iff.mp hwhole
  split at h
  · next hnone =>
    cases h
    rw [Text.indexOf?_eq_none_iff word_separatorWord.ne_nil] at hnone
    exact ⟨htrimmed, tail, .unbound hnone htail, lead, hlead, hrest⟩
  · next n hsome =>
    obtain ⟨before, after, htext, rfl, hnot⟩ := indexOf?_separatorWord_eq_some_iff.mp hsome
    obtain ⟨hexpr, hafter⟩ := cut_at_separator htext
    obtain ⟨bs, hbs, h⟩ := bind_eq_ok_iff.mp h
    rw [bindings_eq_ok_iff, hafter] at hbs
    simp only [hexpr, List.isEmpty_iff] at h
    split_ifs at h with hempty
    obtain rfl := Except.ok.inj h
    rw [htext] at htrimmed
    have hinner : whole.Between [] ⟨whole.start, before.rdropWhile isBlank⟩
        (before.rtakeWhile isBlank ++ separatorWord ++ after) := by
      refine ⟨?_, rfl⟩
      simp only [htext, List.nil_append, ← List.append_assoc, List.rdropWhile_append_rtakeWhile]
    have hfollows := hrest.trans hinner
    rw [List.append_nil, List.append_assoc (_ ++ separatorWord)] at hfollows
    refine ⟨htrimmed.of_append hempty, _, .bound (fun h => hnot ?_)
      (fun c => List.mem_rtakeWhile_imp) (hbs.append_blanks htail), lead, hlead, hfollows⟩
    exact h.trans (List.rdropWhile_prefix _ _).isInfix

/-- **Whatever is written to be evaluated is read back.** The blanks at the end of the bindings go
first, so that the expression, the separator and the bindings are a trimmed text; the separator does
not occur in it before the place where it is written. -/
theorem evaluate_eq_ok_of_evaluates (htrimmed : Trimmed command.expr.text)
    (h : Evaluates command.action command.expr.text tail)
    (hfollows : Follows [] rest command.expr tail) : evaluate name rest = .ok command := by
  obtain ⟨action, expr⟩ := command
  refine bind_eq_ok_iff.mpr ?_
  cases h with
  | unbound hnot htail =>
    refine ⟨expr, expression_eq_ok_iff.mpr ⟨htrimmed, tail, htail, hfollows⟩, ?_⟩
    rw [(Text.indexOf?_eq_none_iff word_separatorWord.ne_nil).mpr hnot]
  | @bound _ blanks text bs hnot hblanks hbinds =>
    obtain ⟨front, blanks', hblanks', rfl, hfront, hne, hlast⟩ := hbinds.exists_end
    obtain ⟨lead, hlead, hrest⟩ := hfollows
    let whole : Slice := ⟨expr.start, expr.text ++ (blanks ++ separatorWord ++ front)⟩
    have hwhole : Trimmed whole.text :=
      htrimmed.append (by simp [hne]) (by rwa [List.getLast?_append_of_ne_nil _ hne])
    have hbetween : rest.Between lead whole blanks' := by
      refine ⟨?_, hrest.start⟩
      rw [hrest.text]
      simp only [whole, List.append_assoc]
    have htext : whole.text = (expr.text ++ blanks) ++ (separatorWord ++ front) := by
      simp only [whole, List.append_assoc]
    have hindex : Text.indexOf? separatorWord whole.text = some (expr.text ++ blanks).length := by
      refine indexOf?_separatorWord_eq_some_iff.mpr ⟨_, front, htext, rfl, ?_⟩
      rwa [Text.infix_append_blanks word_separatorWord hblanks]
    obtain ⟨hexpr, hafter⟩ := cut_at_separator htext
    rw [(Text.rdropWhile_eq_iff htrimmed).mpr ⟨blanks, hblanks, rfl⟩] at hexpr
    rw [← hafter, ← bindings_eq_ok_iff] at hfront
    refine ⟨whole, expression_eq_ok_iff.mpr ⟨hwhole, blanks', hblanks', lead, hlead, hbetween⟩, ?_⟩
    simp only [hindex, hfront, hexpr, List.isEmpty_iff]
    exact if_neg htrimmed.ne_nil

/-! ### Lines -/

theorem named_eq_ok_iff {word : Slice} {command : Command α} {text : String} :
    named text word rest = .ok command ↔
      Trimmed command.expr.text ∧
        ∃ words tail, Form text command.action words command.expr.text tail ∧
          Follows words rest command.expr tail := by
  unfold named
  constructor
  · intro h
    split at h
    · obtain ⟨haction, htrimmed, tail, htail, hfollows⟩ := simple_eq_ok_iff.mp h
      exact ⟨htrimmed, [], tail, haction ▸ .latex htail, hfollows⟩
    · obtain ⟨haction, htrimmed, tail, htail, hfollows⟩ := simple_eq_ok_iff.mp h
      exact ⟨htrimmed, [], tail, haction ▸ .plain htail, hfollows⟩
    · obtain ⟨haction, htrimmed, tail, htail, hfollows⟩ := simple_eq_ok_iff.mp h
      exact ⟨htrimmed, [], tail, haction ▸ .vars htail, hfollows⟩
    · obtain ⟨v, hv, haction, htrimmed, tail, htail, hfollows⟩ := differentiate_eq_ok_iff.mp h
      exact ⟨htrimmed, [[v]], tail, haction ▸ .diff hv htail, hfollows⟩
    · obtain ⟨htrimmed, tail, hform, hfollows⟩ := evaluates_of_evaluate_eq_ok h
      exact ⟨htrimmed, [], tail, .eval hform, hfollows⟩
    · cases h
  · obtain ⟨action, expr⟩ := command
    rintro ⟨htrimmed, words, tail, hform, hfollows⟩
    cases hform with
    | latex htail => exact simple_eq_ok_iff.mpr ⟨rfl, htrimmed, tail, htail, hfollows⟩
    | plain htail => exact simple_eq_ok_iff.mpr ⟨rfl, htrimmed, tail, htail, hfollows⟩
    | vars htail => exact simple_eq_ok_iff.mpr ⟨rfl, htrimmed, tail, htail, hfollows⟩
    | diff hv htail =>
      exact differentiate_eq_ok_iff.mpr ⟨_, hv, rfl, htrimmed, tail, htail, hfollows⟩
    | eval hform => exact evaluate_eq_ok_of_evaluates htrimmed hform hfollows

/-- **A line is taken apart into what it writes.** -/
theorem writes_of_parseSlice_eq_ok {line : List Char} {command : Command α}
    (h : parseSlice ⟨0, line⟩ = .ok command) : Writes line command := by
  obtain ⟨action, start, expr⟩ := command
  unfold parseSlice at h
  split at h
  · cases h
  · next word rest hword =>
    split at h
    · next name hname =>
      obtain ⟨htrimmed, words, tail, hform, hfollows⟩ := named_eq_ok_iff.mp h
      rw [← String.toList_ofList (l := name)] at hname
      obtain ⟨lead, hlead, hline⟩ := (follows_cons_iff hform.word htrimmed).mpr
        ⟨word, rest, hword, hname, hfollows⟩
      obtain rfl : line = lead ++ expr ++ tail := hline.text
      obtain rfl : start = Text.bytes lead := hline.start_eq
      exact .named htrimmed hform hlead
    · next hcolon =>
      obtain ⟨rfl, htrimmed, tail, htail, hfollows⟩ := simple_eq_ok_iff.mp h
      obtain ⟨lead, hlead, hline⟩ := follows_nil_iff.mp hfollows
      obtain ⟨word', rest', hword', hhead⟩ := Slice.exists_word? htrimmed hlead hline
      obtain ⟨rfl, -⟩ := Prod.mk.inj (Option.some.inj (hword.symm.trans hword'))
      obtain rfl : line = lead ++ expr ++ tail := hline.text
      obtain rfl : start = Text.bytes lead := hline.start_eq
      refine .bare htrimmed (fun hexpr => ?_) hlead htail
      obtain ⟨name, hname⟩ := List.head?_eq_some_iff.mp (hhead.trans hexpr)
      exact hcolon name hname

/-- **Whatever a line writes is read back.** -/
theorem parseSlice_eq_ok_of_writes {line : List Char} {command : Command α}
    (h : Writes line command) : parseSlice ⟨0, line⟩ = .ok command := by
  unfold parseSlice
  cases h with
  | @bare before expr after htrimmed hcolon hbefore hafter =>
    let part : Slice := ⟨Text.bytes before, expr⟩
    have hline : Slice.Between ⟨0, before ++ expr ++ after⟩ before part after :=
      ⟨rfl, (Nat.zero_add _).symm⟩
    obtain ⟨word, rest, hword, hhead⟩ := Slice.exists_word? htrimmed hbefore hline
    rw [hword]
    simp only
    split
    · next name hname =>
      rw [hname] at hhead
      exact absurd hhead.symm hcolon
    · exact simple_eq_ok_iff.mpr
        ⟨rfl, htrimmed, after, hafter, follows_nil_iff.mpr ⟨before, hbefore, hline⟩⟩
  | @named name action words lead expr tail htrimmed hform hlead =>
    let part : Slice := ⟨Text.bytes lead, expr⟩
    have hline : Slice.Between ⟨0, lead ++ expr ++ tail⟩ lead part tail :=
      ⟨rfl, (Nat.zero_add _).symm⟩
    obtain ⟨word, rest, hword, hname, hfollows⟩ :=
      (follows_cons_iff hform.word htrimmed).mp ⟨lead, hlead, hline⟩
    rw [hword]
    simp only [hname, String.ofList_toList]
    exact named_eq_ok_iff.mpr ⟨htrimmed, words, tail, hform, hfollows⟩

omit [ListableNumeral α] in
/-- The expression of a command stands in the line that writes it. -/
theorem Writes.between {line : List Char} {command : Command α} (h : Writes line command) :
    Trimmed command.expr.text ∧
      ∃ before after, Slice.Between ⟨0, line⟩ before command.expr after := by
  cases h with
  | bare htrimmed => exact ⟨htrimmed, _, _, rfl, (Nat.zero_add _).symm⟩
  | named htrimmed => exact ⟨htrimmed, _, _, rfl, (Nat.zero_add _).symm⟩

end Command

/-- **Command lines are read back exactly.** If a line is taken apart into a command, then the
expression of the command is not empty, has no blank at either end, and is made of the bytes of the
line from where it starts to where it stops. And a line is taken apart into a command exactly if it
writes that command: the action and its words, the bindings in their order, and the expression with
the place at which it is written, whatever blanks stand around the words and in the bindings. -/
theorem lines_read_back (α : Type) [Numeral α] [ListableNumeral α] (line : String)
    (command : Command α) :
    (Command.parse line = .ok command →
      Trimmed command.expr.text ∧ command.expr.span.Inside line.toList ∧
        Text.bytesAt line.toList command.expr.span = command.expr.toString.toByteArray) ∧
    (Command.parse line = .ok command ↔ Command.Writes line.toList command) := by
  have hiff : Command.parse line = .ok command ↔ Command.Writes line.toList command :=
    ⟨Command.writes_of_parseSlice_eq_ok, Command.parseSlice_eq_ok_of_writes⟩
  refine ⟨fun h => ?_, hiff⟩
  obtain ⟨htrimmed, before, after, hline⟩ := (hiff.mp h).between
  exact ⟨htrimmed, hline.pieceOf.inside, Text.Covers.bytesAt_eq hline.pieceOf⟩

/-- Blanks of all kinds, and characters of two bytes before, in and after an expression. -/
theorem lines_read_back_evaluate :
    let line := "\u3000:eval é·x\u00a0where é = 1 ,x=-2.5 "
    let command : Command Float := ⟨.evaluate [('é', 1.0), ('x', -2.5)], ⟨9, "é·x".toList⟩⟩
    Command.parse line = .ok command ∧ Command.Writes line.toList command ∧
      Text.bytesAt line.toList ⟨9, 14⟩ = "é·x".toByteArray := by
  intro line command
  have hparse : Command.parse line = .ok command := by decide +kernel
  obtain ⟨hexpr, hwrites⟩ := lines_read_back Float line command
  exact ⟨hparse, hwrites.mp hparse, (hexpr hparse).2.2⟩

end SymbolicAlgebra
