import SymbolicAlgebra.Proofs.Reader.EmptyPairs
import SymbolicAlgebra.Proofs.Reader.Faults
import SymbolicAlgebra.Proofs.Token.Munch
import SymbolicAlgebra.Reader.Parse

/-! # Operating a reader

A reader can be asked for one thing after another, and after a fault for the next one still. A
reader of a text starts over the text and stays so, and so every fault that it ever gives fits the
text (`Operation.faults_fit`). -/

namespace SymbolicAlgebra

namespace Reader

/-- What a reader can be asked for. -/
inductive Operation where
  | next
  | eat (kind : TokenKind)
  | expect (kinds : List TokenKind)
  | register (name : Char)
  | sum
  | atom
  | group
  | args
  | full
  deriving DecidableEq, Repr

/-- The fault of a result, if it is one. -/
def fault {β : Type} : Except Fault β → Option Fault
  | .ok _ => none
  | .error fault => some fault

namespace Operation

variable (α : Type) [Scalar α] [Numeral α]

/-- The fault of an operation, if it fails, and the reader after it. -/
def perform : Operation → Reader → Option Fault × Reader
  | next, r => (r.perform Read.next).map fault id
  | eat kind, r => (r.perform (Read.eat kind)).map fault id
  | expect kinds, r => (r.perform (Read.expect kinds)).map fault id
  | register name, r => (r.perform (Read.register name)).map fault id
  | sum, r => (r.sum (α := α)).map fault id
  | atom, r => (r.atom (α := α)).map fault id
  | group, r => (r.group (α := α)).map fault id
  | args, r => (r.args (α := α)).map fault id
  | full, r => (r.full (α := α)).map fault id

/-- The faults of operations one after the other. -/
def faults : List Operation → Reader → List Fault
  | [], _ => []
  | op :: ops, r => (op.perform α r).1.toList ++ faults ops (op.perform α r).2

end Operation

/-! ### Where a reader starts -/

/-- **A reader starts over its text.** -/
theorem over_ofChars (text : List Char) : (ofChars text).Over text (ofChars text).ahead where
  length := rfl
  tokens_eq := rfl
  pieces t ht := by
    have hmunches := Token.munches_scan text
    exact hmunches.pieces (List.nil_append text).symm rfl t ((ahead_sublist text).subset ht)
  ordered := (Token.munches_scan text).fills.ordered.sublist (ahead_sublist text)

/-! ### Checks -/

section Checks
variable {α : Type} [Numeral α] {text : List Char} {tokens : List Token} {fault : Fault}
  (hin : ∀ t ∈ tokens, t.span.Inside text)
include hin

theorem symbolFault?_fits (h : symbolFault? tokens = some fault) :
    fault.Fits α text tokens := by
  obtain ⟨t, ht, rfl⟩ := Option.map_eq_some_iff.mp h
  exact .on (hin t (List.mem_of_find?_eq_some ht)) (by simp)

omit [Numeral α] hin in
theorem bracketFault?_step (stack : List Token) (t : Token) (rest : List Token) :
    bracketFault? stack (t :: rest) =
      match t.kind, stack with
      | .opening, _ => bracketFault? (t :: stack) rest
      | .closing, _ :: outer => bracketFault? outer rest
      | .closing, [] => some (.on t.span (.unclosedBracket false))
      | _, _ => bracketFault? stack rest := by
  cases stack <;> rfl

/-- The brackets still open are among the tokens too. -/
theorem bracketFault?_fits : ∀ {rest stack : List Token}, stack ⊆ tokens → rest ⊆ tokens →
    bracketFault? stack rest = some fault → fault.Fits α text tokens
  | [], [], _, _, h => by cases h
  | [], t :: _, hstack, _, h => by
    rw [bracketFault?] at h
    obtain rfl := Option.some.inj h
    exact .on (hin t (hstack List.mem_cons_self)) (by simp)
  | t :: rest, stack, hstack, hrest, h => by
    obtain ⟨ht, hrest⟩ := List.cons_subset.mp hrest
    rw [bracketFault?_step] at h
    split at h
    · exact bracketFault?_fits (List.cons_subset.mpr ⟨ht, hstack⟩) hrest h
    · exact bracketFault?_fits (List.cons_subset.mp hstack).2 hrest h
    · obtain rfl := Option.some.inj h
      exact .on (hin t ht) (by simp)
    · exact bracketFault?_fits hstack hrest h

theorem operatorFault?_fits : ∀ {rest : List Token}, rest ⊆ tokens →
    operatorFault? rest = some fault → fault.Fits α text tokens
  | [], _, h => by cases h
  | [_], _, h => by cases h
  | first :: second :: rest, hrest, h => by
    obtain ⟨hfirst, hrest⟩ := List.cons_subset.mp hrest
    rw [operatorFault?] at h
    split_ifs at h
    · obtain rfl := Option.some.inj h
      refine ⟨List.forall_mem_cons.mpr ⟨hin first hfirst, List.forall_mem_singleton.mpr ?_⟩, by simp⟩
      exact hin second (hrest List.mem_cons_self)
    · exact operatorFault?_fits hrest h

/-- **The faults of the checks fit.** -/
theorem fault?_fits (h : fault? (Text.bytes text) tokens = some fault) :
    fault.Fits α text tokens := by
  simp only [fault?, Option.orElse_eq_orElse, Option.orElse_eq_or, Option.or_eq_some_iff] at h
  rcases h with h | ⟨-, h | ⟨-, h | ⟨-, h⟩⟩⟩
  · unfold emptyFault? at h
    split_ifs at h
    obtain rfl := Option.some.inj h
    exact .on (.whole text) (by simp)
  · exact symbolFault?_fits hin h
  · exact bracketFault?_fits hin (List.nil_subset _) (List.Subset.refl _) h
  · exact operatorFault?_fits hin (List.Subset.refl _) h

end Checks

/-! ### Operations -/

variable {α : Type} [Scalar α] [Numeral α] {text : List Char} {tokens : List Token} {r : Reader}

/-- **A result that fits**: the reader is still over the text, and a fault fits. -/
def ResultFits (α : Type) [Numeral α] (text : List Char) (tokens : List Token)
    (result : Option Fault × Reader) : Prop :=
  result.2.Over text tokens ∧ ∀ fault ∈ result.1, fault.Fits α text tokens

omit [Scalar α] in
theorem Over.perform {β : Type} {a : Read β} (hr : r.Over text tokens)
    (ha : Read.Fits α text tokens a r) :
    ResultFits α text tokens ((r.perform a).map fault id) := by
  unfold Reader.perform
  unfold Read.Fits at ha
  generalize a r = o at ha
  cases o with
  | done x r' => exact ⟨hr.advances ha.1, by simp [fault]⟩
  | failed f r' => exact ⟨hr.advances ha.1, by simpa [fault] using ha.2⟩
  | spent => exact ⟨hr, by simpa [fault] using hr.fits_end⟩

theorem toEnd_fits (fuel : Nat) (hr : r.Over text tokens) :
    Read.Fits α text tokens (toEnd (α := α) fuel) r := by
  refine Read.bind_ends ((fitting α text tokens fuel).sum hr) fun e r' h _ =>
    Read.get_bind_ends ?_
  have hspan := (hr.advances h).span_inside
  generalize r'.peek? = next
  cases next with
  | none => exact Read.pure_ends trivial
  | some kind =>
    refine ⟨.refl _, .on hspan fun lexeme => ?_⟩
    split_ifs <;> simp

/-- **One operation**: whatever is asked of a reader over a text, it stays over the text, and its
fault fits. -/
theorem Operation.perform_fits (op : Operation) (hr : r.Over text tokens) :
    ResultFits α text tokens (op.perform α r) := by
  have hfits := fitting α text tokens r.fuel
  have hend : r.ahead = [] → (Fault.on r.span .unexpectedEnd).Fits α text tokens :=
    fun _ => hr.fits_end
  cases op with
  | next => exact hr.perform (Read.next_ends hend |>.mono fun _ _ _ _ => trivial)
  | eat kind => exact hr.perform (Read.eat_ends kind)
  | expect kinds =>
    refine hr.perform (Read.expect_ends hend (fun t ht => ?_) |>.mono fun _ _ _ _ => trivial)
    exact hr.fits_unexpected (hr.mem_of_ahead ht) kinds
  | register name => exact hr.perform (Read.register_ends name)
  | sum => exact hr.perform (hfits.sum hr)
  | atom => exact hr.perform (hfits.atom hr)
  | group => exact hr.perform (hfits.group hr)
  | args => exact hr.perform (hfits.args hr)
  | full =>
    have hchecks {fault : Fault} (h : fault? r.length r.tokens = some fault) :
        fault.Fits α text tokens := by
      rw [hr.length, hr.tokens_eq] at h
      exact fault?_fits (fun t ht => hr.token_inside ht) h
    show ResultFits α text tokens (r.full.map Reader.fault id)
    unfold Reader.full
    split
    · next fault h => exact ⟨hr, by simpa [Reader.fault] using hchecks h⟩
    · exact hr.perform (toEnd_fits r.fuel hr)

/-- **Any operations**, one after the other. -/
theorem Operation.faults_fit : ∀ (ops : List Operation) {r : Reader}, r.Over text tokens →
    ∀ fault ∈ faults α ops r, fault.Fits α text tokens
  | [], _, _ => by simp [faults]
  | op :: ops, r, hr => by
    obtain ⟨hover, hfault⟩ := op.perform_fits (α := α) hr
    refine List.forall_mem_append.mpr ⟨fun fault h => hfault fault ?_, faults_fit ops hover⟩
    exact Option.mem_toList.mp h

end Reader

/-- **The fault of a text that does not parse** fits the text. -/
theorem Expr.parseChars_fits {α : Type} [Scalar α] [Numeral α] {text : List Char} {fault : Fault}
    (h : Expr.parseChars (α := α) text = .error fault) :
    fault.Fits α text (Reader.ofChars text).ahead := by
  have hfull := (Reader.Operation.full.perform_fits (α := α) (Reader.over_ofChars text)).2
  unfold Expr.parseChars at h
  split at h
  · cases h
  · next f r hresult =>
    obtain rfl := Except.error.inj h
    refine hfull f ?_
    simp [Reader.Operation.perform, hresult, Reader.fault]

end SymbolicAlgebra
