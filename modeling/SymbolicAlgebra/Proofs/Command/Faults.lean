import SymbolicAlgebra.Double.Instances
import SymbolicAlgebra.Proofs.Reader.Operation
import SymbolicAlgebra.Session

/-! # The faults of a line

All that a command takes from a line is a piece of the line, so its faults point into the line. The
faults of an expression point into the expression, and moving them along with it makes them point
at the same bytes of the line. -/

namespace SymbolicAlgebra

variable {α : Type} {text : List Char}

/-- **A result that points into the text**: a value that satisfies the condition, or a fault whose
spans lie inside the text. -/
def Points {β : Type} (text : List Char) (P : β → Prop) : Except Fault β → Prop
  | .ok x => P x
  | .error fault => ∀ s ∈ fault.spans, s.Inside text

namespace Points

variable {β γ : Type} {P : β → Prop} {P' : γ → Prop}

theorem bind {a : Except Fault β} {f : β → Except Fault γ} (ha : Points text P a)
    (hf : ∀ x, P x → Points text P' (f x)) : Points text P' (a >>= f) := by
  cases a with
  | ok x => exact hf x ha
  | error fault => exact ha

theorem on {s : Span} {cause : Cause} (h : s.Inside text) :
    Points text P (.error (.on s cause)) :=
  List.forall_mem_singleton.mpr h

end Points

namespace Command

variable {name rest : Slice}

theorem expression_points {usage : String} {span : Span} (hspan : span.Inside text)
    (hrest : rest.PieceOf text) : Points text (·.PieceOf text) (expression usage span rest) := by
  unfold expression
  simp only
  split_ifs
  · exact .on hspan
  · exact hrest.trim

/-- **A command whose expression is a piece of the text.** -/
abbrev Fits (text : List Char) (result : Except Fault (Command α)) : Prop :=
  Points text (fun command => command.expr.PieceOf text) result

theorem simple_fits {action : Action α} {usage : String} (hname : name.PieceOf text)
    (hrest : rest.PieceOf text) : Fits text (simple action usage name rest) :=
  (expression_points hname.inside hrest).bind fun _ h => h

theorem differentiate_fits (hname : name.PieceOf text) (hrest : rest.PieceOf text) :
    Fits text (differentiate (α := α) name rest) := by
  unfold differentiate
  rcases hword : rest.word? with _ | ⟨word, rest'⟩
  · exact .on hname.inside
  · obtain ⟨hword, hrest'⟩ := hrest.word? hword
    simp only
    rcases letter? word.text with _ | v
    · exact .on hword.inside
    · exact (expression_points hword.inside hrest').bind fun _ h => h

variable [Numeral α]

theorem bindings_points : ∀ {pieces : List Slice}, (∀ p ∈ pieces, p.PieceOf text) →
    Points text (fun _ => True) (bindings (α := α) pieces)
  | [], _ => trivial
  | piece :: rest, h => by
    obtain ⟨hpiece, hrest⟩ := List.forall_mem_cons.mp h
    unfold bindings
    split
    · exact .on hpiece.inside
    · exact (bindings_points hrest).bind fun _ _ => trivial

theorem evaluate_fits (hname : name.PieceOf text) (hrest : rest.PieceOf text) :
    Fits text (evaluate (α := α) name rest) := by
  unfold evaluate
  refine (expression_points hname.inside hrest).bind fun expr hexpr => ?_
  rcases Text.indexOf? separatorWord expr.text with _ | n
  · exact hexpr
  · have hpieces := (hexpr.drop (n + separatorWord.length)).pieces ','
    refine (bindings_points hpieces).bind fun bs _ => ?_
    simp only
    split_ifs
    · exact .on hname.inside
    · exact (hexpr.take n).dropEndWhile Text.isBlank

theorem named_fits (command : String) (hname : name.PieceOf text) (hrest : rest.PieceOf text) :
    Fits text (named (α := α) command name rest) := by
  unfold named
  split
  · exact simple_fits hname hrest
  · exact simple_fits hname hrest
  · exact simple_fits hname hrest
  · exact differentiate_fits hname hrest
  · exact evaluate_fits hname hrest
  · exact .on hname.inside

/-- **The command of a line** takes its expression from the line, or its fault points into it. -/
theorem parseSlice_fits {line : Slice} (hline : line.PieceOf text) :
    Fits text (parseSlice (α := α) line) := by
  unfold parseSlice
  rcases hword : line.word? with _ | ⟨word, rest⟩
  · exact .on hline.inside
  · obtain ⟨hword, hrest⟩ := hline.word? hword
    simp only
    split
    · exact named_fits _ hword hrest
    · exact simple_fits hword hline

end Command

namespace Session

variable [Scalar α] [Numeral α]

omit [Scalar α] [Numeral α] in
/-- A cause that points at no part of the line fails its stage with a fault that has no spans. -/
theorem during_unplaced {β γ : Type} {stage stage' : Stage} {fault : Fault} {a : Except Cause β}
    {f : β → γ} (h : (do let x ← during stage (unplaced a); .ok (f x)) = .error (stage', fault)) :
    fault.spans = [] ∧ stage' = stage := by
  cases a with
  | ok x => cases h
  | error cause =>
    obtain ⟨rfl, rfl⟩ := Prod.mk.inj (Except.error.inj h)
    exact ⟨rfl, rfl⟩

/-- Evaluation and differentiation point at no part of the line. -/
theorem answer_spans {eqn : Equation α} {action : Action α} {stage : Stage} {fault : Fault}
    (h : answer eqn action = .error (stage, fault)) :
    fault.spans = [] ∧ stage ≠ .reading := by
  cases action with
  | render style => cases h
  | differentiate v =>
    obtain ⟨hspans, rfl⟩ := during_unplaced h
    exact ⟨hspans, by decide⟩
  | evaluate bindings =>
    obtain ⟨hspans, rfl⟩ := during_unplaced h
    exact ⟨hspans, by decide⟩
  | vars => cases h

/-- **How a line fails**: its command is faulty, or its expression, whose fault is moved along with
it, or the answer, whose fault has no spans. -/
theorem runSlice_error {line : Slice} {stage : Stage} {fault : Fault}
    (h : runSlice α line = .error (stage, fault)) :
    (stage = .command ∧ Command.parseSlice (α := α) line = .error fault) ∨
      (∃ (command : Command α) (unshifted : Fault), stage = .reading ∧
        Command.parseSlice line = .ok command ∧
        Equation.parseChars (α := α) command.expr.text = .error unshifted ∧
        fault = unshifted.shift command.expr.start) ∨
      (fault.spans = [] ∧ stage ≠ .reading) := by
  unfold runSlice at h
  rcases hcommand : Command.parseSlice (α := α) line with f | command
  · rw [hcommand] at h
    obtain ⟨rfl, rfl⟩ := Prod.mk.inj (Except.error.inj h)
    exact .inl ⟨rfl, rfl⟩
  · rcases hread : Equation.parseChars (α := α) command.expr.text with unshifted | eqn
    · rw [hcommand] at h
      simp only [during, bind, Except.bind, hread, shifted] at h
      obtain ⟨rfl, rfl⟩ := Prod.mk.inj (Except.error.inj h)
      exact .inr (.inl ⟨command, unshifted, rfl, rfl, hread, rfl⟩)
    · rw [hcommand] at h
      simp only [during, bind, Except.bind, hread, shifted] at h
      exact .inr (.inr (answer_spans h))

/-- **A span of a piece of the line**, moved along with the piece: it lies within the piece's own
bytes, and covers the same bytes there as in the piece. -/
structure Moved (line : List Char) (piece : Slice) (s s' : Span) : Prop where
  inside : s.Inside piece.text
  shifted : s' = s.shift piece.start
  start_le : piece.start ≤ s'.start
  le_stop : s'.stop ≤ piece.start + (String.ofList piece.text).utf8ByteSize
  bytes : Text.bytesAt line s' = Text.bytesAt piece.text s

theorem moved_of_inside {line : List Char} {piece : Slice} {s : Span} (hpiece : piece.PieceOf line)
    (h : s.Inside piece.text) :
    (s.shift piece.start).Inside line ∧ Moved line piece s (s.shift piece.start) := by
  obtain ⟨hinside, hstart, hstop, hbytes⟩ := h.shift hpiece
  rw [Text.bytes_eq] at hstop
  exact ⟨hinside, h, rfl, hstart, hstop, hbytes⟩

end Session

/-- The fault of an equation that does not parse points into its text. -/
theorem Equation.parseChars_inside [Scalar α] [Numeral α] {fault : Fault}
    (h : Equation.parseChars (α := α) text = .error fault) : ∀ s ∈ fault.spans, s.Inside text := by
  unfold Equation.parseChars at h
  rcases hexpr : Expr.parseChars (α := α) text with f | ⟨root, vars⟩
  · rw [hexpr] at h
    obtain rfl := Except.error.inj h
    exact (Expr.parseChars_fits hexpr).inside
  · rw [hexpr] at h
    cases h

/-- **Faults point into their text.** If a line fails, every span of its fault is inside the line:
its ends are boundaries of characters of the line, in order. If reading its expression is what
failed, then the fault is that of the expression, and every span is moved to where the expression
stands in the line, where it lies within the expression and covers the same bytes as before. And
whatever is asked of a reader of any text, one thing after another, every span of every fault is
inside the text. -/
theorem faults_point_inside (α : Type) [Scalar α] [Numeral α] :
    (∀ (line : String) (stage : Stage) (fault : Fault),
      Session.run α line = .error (stage, fault) →
        (∀ s ∈ fault.spans, s.Inside line.toList) ∧
        (stage = .reading → ∃ (command : Command α) (unshifted : Fault),
          Command.parse line = .ok command ∧
          Equation.parseChars (α := α) command.expr.text = .error unshifted ∧
          fault = unshifted.shift command.expr.start ∧
          ∀ s' ∈ fault.spans, ∃ s ∈ unshifted.spans,
            Session.Moved line.toList command.expr s s')) ∧
    ∀ (text : String) (ops : List Reader.Operation),
      ∀ fault ∈ Reader.Operation.faults α ops (Reader.ofChars text.toList),
        ∀ s ∈ fault.spans, s.Inside text.toList := by
  refine ⟨fun line stage fault h => ?_, fun text ops fault h => ?_⟩
  · have hline : (Slice.ofString line).PieceOf line.toList := .self line.toList
    have hcommand := Command.parseSlice_fits (α := α) hline
    rcases Session.runSlice_error h with
      ⟨rfl, hfault⟩ | ⟨command, unshifted, rfl, hok, hread, rfl⟩ | ⟨hnone, hstage⟩
    · rw [hfault] at hcommand
      exact ⟨hcommand, fun hstage => by cases hstage⟩
    · rw [hok] at hcommand
      have hmoved (s : Span) (hs : s ∈ unshifted.spans) :=
        Session.moved_of_inside hcommand (Equation.parseChars_inside hread s hs)
      refine ⟨List.forall_mem_map.mpr fun s hs => (hmoved s hs).1, fun _ =>
        ⟨command, unshifted, hok, hread, rfl, List.forall_mem_map.mpr fun s hs => ?_⟩⟩
      exact ⟨s, hs, (hmoved s hs).2⟩
    · rw [hnone]
      exact ⟨by simp, fun h => absurd h hstage⟩
  · exact (Reader.Operation.faults_fit ops (Reader.over_ofChars text.toList) fault h).inside

/-- The expression of `:plain é$x` starts at byte 7 of the line and its first letter takes two
bytes, which the fault points at. -/
theorem faults_point_inside_plain :
    let fault : Fault := .on ⟨7, 9⟩ (.invalidCharacter "é")
    Session.run Float ":plain é$x" = .error (.reading, fault) ∧
      ∀ s ∈ fault.spans, s.Inside ":plain é$x".toList := by
  intro fault
  have hrun : Session.run Float ":plain é$x" = .error (.reading, fault) := by decide +kernel
  exact ⟨hrun, ((faults_point_inside Float).1 _ _ _ hrun).1⟩

end SymbolicAlgebra
