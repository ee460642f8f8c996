import SymbolicAlgebra.Proofs.Grammar.Steps

/-! # How actions end

Whether an action on a reader ends well or fails, it leaves the same reader at a later place
(`Advances`): tokens move from ahead to behind, and variables are added. `Outcome.Ends r P Q` says
so of the outcome of an action on `r`, together with what is known of a value, `P`, and of a fault,
`Q`. One lemma for each basic action, and one for sequences of actions. -/

namespace SymbolicAlgebra

variable {β γ : Type}

/-- **The reader `r'` is the reader `r` at a later place.** -/
structure Advances (r r' : Reader) : Prop where
  length : r'.length = r.length
  tokens : r'.tokens = r.tokens
  behind : r.behind <:+ r'.behind
  vars {c : Char} : c ∈ r.vars → c ∈ r'.vars

namespace Advances

variable {r r₁ r₂ : Reader}

theorem refl (r : Reader) : Advances r r := ⟨rfl, rfl, List.suffix_refl _, id⟩

theorem trans (h : Advances r r₁) (h' : Advances r₁ r₂) : Advances r r₂ where
  length := h'.length.trans h.length
  tokens := h'.tokens.trans h.tokens
  behind := h.behind.trans h'.behind
  vars hc := h'.vars (h.vars hc)

/-- One token further. -/
theorem pass {t : Token} {ahead : List Token} (h : r.ahead = t :: ahead) :
    Advances r { r with behind := t :: r.behind, ahead } where
  length := rfl
  tokens := by simp [Reader.tokens, h]
  behind := List.suffix_cons t r.behind
  vars := id

theorem register (name : Char) : Advances r { r with vars := r.vars.insert name } where
  length := rfl
  tokens := rfl
  behind := List.suffix_refl _
  vars hc := VarSet.mem_insert.mpr (.inr hc)

/-- A token that was behind stays behind. -/
theorem mem_behind {t : Token} (h : Advances r r₁) (ht : t ∈ r.behind) : t ∈ r₁.behind :=
  h.behind.subset ht

end Advances

/-- **How an action on the reader `r` ends**: at a later place, with a value or a fault of which
something is known, unless the fuel runs out. -/
def Outcome.Ends (r : Reader) (P : β → Reader → Prop) (Q : Fault → Prop) : Outcome β → Prop
  | .done x r' => Advances r r' ∧ P x r'
  | .failed fault r' => Advances r r' ∧ Q fault
  | .spent => True

theorem Outcome.Ends.mono {r : Reader} {P P' : β → Reader → Prop} {Q : Fault → Prop}
    {o : Outcome β} (h : o.Ends r P Q) (hP : ∀ x r', Advances r r' → P x r' → P' x r') :
    o.Ends r P' Q := by
  cases o with
  | done x r' => exact ⟨h.1, hP x r' h.1 h.2⟩
  | failed fault r' => exact h
  | spent => trivial

namespace Read

variable {r : Reader} {P : β → Reader → Prop} {P' : γ → Reader → Prop} {Q : Fault → Prop}

/-- **A sequence of actions**: what is known after the first one is what the second one starts
from. -/
theorem bind_ends {a : Read β} {f : β → Read γ} (ha : (a r).Ends r P Q)
    (hf : ∀ x r', Advances r r' → P x r' → (f x r').Ends r' P' Q) :
    ((a >>= f) r).Ends r P' Q := by
  show (Read.bind a f r).Ends r P' Q
  unfold Read.bind
  generalize a r = o at ha
  cases o with
  | done x r₁ =>
    obtain ⟨hadvances, hx⟩ := ha
    have hy := hf x r₁ hadvances hx
    simp only
    generalize f x r₁ = o' at hy
    cases o' with
    | done y r₂ => exact ⟨hadvances.trans hy.1, hy.2⟩
    | failed fault r₂ => exact ⟨hadvances.trans hy.1, hy.2⟩
    | spent => trivial
  | failed fault r₁ => exact ha
  | spent => trivial

theorem pure_ends {x : β} (h : P x r) : ((pure x : Read β) r).Ends r P Q := ⟨.refl r, h⟩

theorem fail_ends {fault : Fault} (h : Q fault) : ((fail fault : Read β) r).Ends r P Q :=
  ⟨.refl r, h⟩

theorem get_bind_ends {f : Reader → Read γ} (h : (f r r).Ends r P' Q) :
    ((get >>= f) r).Ends r P' Q := h

theorem next_ends (hend : r.ahead = [] → Q (.on r.span .unexpectedEnd)) :
    (next r).Ends r (fun t r' => r'.behind = t :: r.behind) Q := by
  unfold next
  split
  · next t ahead hahead => exact ⟨.pass hahead, rfl⟩
  · next hahead => exact ⟨.refl r, hend hahead⟩

theorem eat_ends (kind : TokenKind) : (eat kind r).Ends r (fun _ _ => True) Q := by
  unfold eat
  split
  · next t ahead hahead =>
    split_ifs
    · exact ⟨.pass hahead, trivial⟩
    · exact ⟨.refl r, trivial⟩
  · exact ⟨.refl r, trivial⟩

theorem expect_ends {kinds : List TokenKind} (hend : r.ahead = [] → Q (.on r.span .unexpectedEnd))
    (hunexpected : ∀ t ∈ r.ahead, Q (unexpected kinds t)) :
    (expect kinds r).Ends r (fun t r' => r'.behind = t :: r.behind) Q := by
  unfold expect
  split
  · next t ahead hahead =>
    split_ifs
    · exact next_ends hend
    · exact ⟨.refl r, hunexpected t (hahead ▸ List.mem_cons_self)⟩
  · next hahead => exact ⟨.refl r, hend hahead⟩

theorem register_ends (name : Char) :
    (register name r).Ends r (fun _ _ => True) Q := ⟨.register name, trivial⟩

end Read

end SymbolicAlgebra
