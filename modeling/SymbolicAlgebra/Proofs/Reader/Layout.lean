import SymbolicAlgebra.Double.Instances
import SymbolicAlgebra.Proofs.Reader.EmptyPairs
import SymbolicAlgebra.Proofs.Reader.Progress

/-! # Layout and the shapes of brackets

Take two texts whose tokens, layout left out, are of the same kinds one by one and have the same
characters unless they are brackets. Empty pairs of brackets go at the same places, the checks find
the same faults, and the parser reads the same on both (`mirroring`). So the texts parse to the same
expression and the same variables, or not at all, for the same reason
(`layout_and_shapes_do_not_matter`): layout and the shapes of brackets show only in the places that
faults point at. -/

namespace SymbolicAlgebra

namespace Correspondence

/-- The tokens of two texts correspond one by one, layout left out. -/
def ofTexts (text text' : List Char) : Correspondence where
  Pairs t u := (t, u) ∈
    (Reader.dropLayout (Token.scan text)).zip (Reader.dropLayout (Token.scan text'))
  length := Text.bytes text
  length' := Text.bytes text'

variable {C : Correspondence} {t u : Token} {ts us : List Token}

theorem orElse_rel {β γ : Type} {R : β → γ → Prop} {x y : Option β} {x' y' : Option γ}
    (h : Option.Rel R x x') (h' : Option.Rel R y y') : Option.Rel R (x <|> y) (x' <|> y') := by
  cases h with
  | none => exact h'
  | some h => exact .some h

/-! ### Empty pairs -/

section Checks
variable (hC : C.Sound)
include hC

/-- An empty pair goes on both sides or on neither. -/
theorem keep_pairs {kept kept' : List Token} (hkept : List.Forall₂ C.Pairs kept kept')
    (h : C.Pairs t u) : List.Forall₂ C.Pairs (Reader.keep kept t) (Reader.keep kept' u) := by
  have hkind := (hC.mirrors h).kind
  rcases Reader.keep_cases kept t with ⟨t₁, earlier, rfl, ht₁, ht, hkeep⟩ | ⟨hhead, hkeep⟩
  · obtain ⟨u₁, earlier', hlast, hearlier, rfl⟩ := List.forall₂_cons_left_iff.mp hkept
    rw [hkeep, Reader.keep_pair ((hC.mirrors hlast).kind ▸ ht₁) (hkind ▸ ht)]
    exact hearlier
  · have hhead' : ∀ v ∈ kept'.head?, Reader.NoPair v u := by
      cases hkept with
      | nil => simp
      | @cons t₁ u₁ _ _ hlast _ =>
        intro v hv
        obtain rfl : u₁ = v := by simpa using hv
        have hpair := hhead t₁ rfl
        rwa [Reader.NoPair, (hC.mirrors hlast).kind, hkind] at hpair
    rw [hkeep, Reader.keep_noPair hhead']
    exact .cons h hkept

theorem foldl_keep_pairs (h : List.Forall₂ C.Pairs ts us) :
    ∀ {kept kept' : List Token}, List.Forall₂ C.Pairs kept kept' →
      List.Forall₂ C.Pairs (ts.foldl Reader.keep kept) (us.foldl Reader.keep kept') := by
  induction h with
  | nil => exact id
  | cons h _ ih => exact fun hkept => ih (keep_pairs hC hkept h)

theorem dropEmptyPairs_pairs (h : List.Forall₂ C.Pairs ts us) :
    List.Forall₂ C.Pairs (Reader.dropEmptyPairs ts) (Reader.dropEmptyPairs us) :=
  List.rel_reverse (foldl_keep_pairs hC h .nil)

/-! ### Checks -/

omit hC in
theorem emptyFault?_rel (h : List.Forall₂ C.Pairs ts us) :
    Option.Rel C.Faults (Reader.emptyFault? C.length ts) (Reader.emptyFault? C.length' us) := by
  cases h with
  | nil => exact .some .atText
  | cons _ _ => exact .none

theorem symbolFault?_rel (h : List.Forall₂ C.Pairs ts us) :
    Option.Rel C.Faults (Reader.symbolFault? ts) (Reader.symbolFault? us) := by
  induction h with
  | nil => exact .none
  | @cons t u ts us h _ ih =>
    have hm := hC.mirrors h
    unfold Reader.symbolFault? at ih ⊢
    rw [List.find?_cons, List.find?_cons, ← hm.kind]
    split
    · next hsymbol =>
      have hkind : t.kind = .symbol := beq_iff_eq.mp hsymbol
      rw [Option.map_some, Option.map_some, hm.toString_eq (by simp [hkind]) (by simp [hkind])]
      exact .some (.on (.token h) _)
    · exact ih

theorem bracketFault?_rel (h : List.Forall₂ C.Pairs ts us) :
    ∀ {stack stack' : List Token}, List.Forall₂ C.Pairs stack stack' →
      Option.Rel C.Faults (Reader.bracketFault? stack ts) (Reader.bracketFault? stack' us) := by
  induction h with
  | nil =>
    intro stack stack' hstack
    cases hstack with
    | nil => exact .none
    | cons h _ => exact .some (.on (.token h) _)
  | @cons t u ts us h _ ih =>
    intro stack stack' hstack
    rw [Reader.bracketFault?_step, Reader.bracketFault?_step, ← (hC.mirrors h).kind]
    cases hkind : t.kind with
    | opening => exact ih (.cons h hstack)
    | closing =>
      cases hstack with
      | nil => exact .some (.on (.token h) _)
      | cons _ houter => exact ih houter
    | _ => exact ih hstack

theorem operatorFault?_rel (h : List.Forall₂ C.Pairs ts us) :
    Option.Rel C.Faults (Reader.operatorFault? ts) (Reader.operatorFault? us) := by
  induction h with
  | nil => exact .none
  | @cons t u ts us h hs ih =>
    cases hs with
    | nil => exact .none
    | @cons t' u' ts us h' hs =>
      have hm := hC.mirrors h
      have hm' := hC.mirrors h'
      rw [Reader.operatorFault?, Reader.operatorFault?, ← hm.kind, ← hm'.kind]
      split_ifs with hoperators
      · rw [Bool.and_eq_true, Bool.and_eq_true] at hoperators
        rw [hm.operator_eq hoperators.1.1, hm'.operator_eq hoperators.1.2]
        exact .some (.atTokens _ (.cons (.token h) (.cons (.token h') .nil)))
      · exact ih

theorem fault?_rel (h : List.Forall₂ C.Pairs ts us) :
    Option.Rel C.Faults (Reader.fault? C.length ts) (Reader.fault? C.length' us) := by
  have hrows := orElse_rel (bracketFault?_rel hC h .nil) (operatorFault?_rel hC h)
  exact orElse_rel (emptyFault?_rel h) (orElse_rel (symbolFault?_rel hC h) hrows)

theorem check_mirrors : C.Actions Eq Reader.check Reader.check := by
  intro r r' hr
  have htokens : List.Forall₂ C.Pairs r.tokens r'.tokens :=
    List.rel_append (List.rel_reverse hr.behind) hr.ahead
  have hfaults := fault?_rel hC htokens
  unfold Reader.check
  rw [hr.length, hr.length']
  generalize Reader.fault? C.length r.tokens = fault?,
    Reader.fault? C.length' r'.tokens = fault?' at hfaults
  cases hfaults with
  | none => exact ⟨rfl, hr⟩
  | some h => exact ⟨h, hr⟩

theorem checkedToEnd_mirrors (α : Type) [Scalar α] [Numeral α] (fuel : Nat) :
    C.Actions Eq (Reader.checkedToEnd α fuel) (Reader.checkedToEnd α fuel) :=
  (check_mirrors hC).bind_eq fun _ => Reader.toEnd_mirrors α hC (Nat.le_refl fuel)

end Checks

end Correspondence

namespace Reader

variable {text text' : List Char}
  (h : List.Forall₂ Token.Mirrors (dropLayout (Token.scan text)) (dropLayout (Token.scan text')))
include h

theorem ofTexts_sound : (Correspondence.ofTexts text text').Sound :=
  ⟨fun hpair => (List.forall₂_iff_zip.mp h).2 hpair⟩

/-- The readers of two texts start side by side. -/
theorem readers_ofChars :
    (Correspondence.ofTexts text text').Readers (ofChars text) (ofChars text') := by
  have hpairs : List.Forall₂ (Correspondence.ofTexts text text').Pairs
      (dropLayout (Token.scan text)) (dropLayout (Token.scan text')) :=
    List.forall₂_iff_zip.mpr ⟨h.length_eq, id⟩
  exact
    { length := rfl
      length' := rfl
      behind := .nil
      ahead := Correspondence.dropEmptyPairs_pairs (ofTexts_sound h) hpairs
      vars := rfl }

/-- **Layout and the shapes of brackets do not matter.** Two texts of which the tokens other than
layout are of the same kinds one by one, with the same characters unless they are brackets, are read
to the same expression, or both fail with faults of the same cause, at corresponding tokens or at
the end or the whole of either text. The variables met are the same. -/
theorem layout_and_shapes_do_not_matter {α : Type} [Scalar α] [Numeral α] :
    let read := (ofChars text).full (α := α)
    let read' := (ofChars text').full (α := α)
    read.2.vars = read'.2.vars ∧
      match read.1, read'.1 with
      | .ok e, .ok e' => e = e'
      | .error fault, .error fault' => (Correspondence.ofTexts text text').Faults fault fault'
      | _, _ => False := by
  have hr := readers_ofChars h
  have hfuel : (ofChars text').fuel = (ofChars text).fuel := by rw [fuel, fuel, hr.ahead.length_eq]
  have hout := Correspondence.checkedToEnd_mirrors (ofTexts_sound h) α (ofChars text).fuel _ _ hr
  have htakes : Read.Takes 1 (checkedToEnd α (ofChars text).fuel) (ofChars text) :=
    checkedToEnd_takes α (by rw [fuel]; omega)
  rw [full_eq, full_eq, hfuel]
  unfold perform
  unfold Read.Takes at htakes
  generalize checkedToEnd α (ofChars text).fuel (ofChars text) = o at hout htakes
  generalize checkedToEnd α (ofChars text).fuel (ofChars text') = o' at hout
  cases o with
  | done e r =>
    cases o' with
    | done e' r' => exact ⟨hout.2.vars, hout.1⟩
    | _ => exact hout.elim
  | failed fault r =>
    cases o' with
    | failed fault' r' => exact ⟨hout.2.vars, hout.1⟩
    | _ => exact hout.elim
  | spent => exact htakes.elim

omit h in
/-- A group in two layouts. -/
theorem layout_and_shapes_do_not_matter_group :
    List.Forall₂ Token.Mirrors (dropLayout (Token.scan ['(', ' ', 'x', ')']))
      (dropLayout (Token.scan ['[', 'x', '}'])) ∧
    ((ofChars ['(', ' ', 'x', ')']).full (α := Float)).2.vars =
      ((ofChars ['[', 'x', '}']).full (α := Float)).2.vars := by
  have h : List.Forall₂ Token.Mirrors (dropLayout (Token.scan ['(', ' ', 'x', ')']))
      (dropLayout (Token.scan ['[', 'x', '}'])) :=
    .cons ⟨rfl, by decide⟩ (.cons ⟨rfl, by decide⟩ (.cons ⟨rfl, by decide⟩ .nil))
  exact ⟨h, (layout_and_shapes_do_not_matter (α := Float) h).1⟩

end Reader

end SymbolicAlgebra
