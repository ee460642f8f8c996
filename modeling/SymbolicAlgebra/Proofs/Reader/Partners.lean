import SymbolicAlgebra.Proofs.Grammar.Checks
import SymbolicAlgebra.Proofs.Reader.Operation

/-! # Partners of brackets

Two brackets of a row of tokens are partners if what stands between them is balanced. A row is
balanced if the check of brackets finds no fault in it (`balanced_iff`), and the check does not
notice an empty pair (`bracketFault?_deletes`). So nothing but the pair itself loses or finds a
partner when an empty pair is deleted: the brackets without a partner are the same before and after
(`lone_deletes_iff`). With that, the tokens that a reader starts with are exactly what deleting
empty pairs from the tokens of its text comes to (`empty_pairs_deleted_exactly`). -/

namespace SymbolicAlgebra.Reader

open Grammar (bracketFault?_cons bracketFault?_opening bracketFault?_closing)
open Relation (ReflTransGen)

variable {ts us : List Token} {t u : Token}

/-! ### Balanced rows -/

/-- **A balanced row**: brackets in pairs, one inside or after the other. -/
inductive Balanced : List Token → Prop where
  | nil : Balanced []
  | other {t : Token} {ts : List Token} : t.kind ≠ .opening → t.kind ≠ .closing → Balanced ts →
    Balanced (t :: ts)
  | nest {t u : Token} {ts us : List Token} : t.kind = .opening → Balanced ts → u.kind = .closing →
    Balanced us → Balanced (t :: (ts ++ u :: us))

/-- The check passes over a balanced row. -/
theorem Balanced.passes (h : Balanced ts) : ∀ stack rest : List Token,
    bracketFault? stack (ts ++ rest) = bracketFault? stack rest := by
  induction h with
  | nil => exact fun _ _ => rfl
  | other hopening hclosing _ ih =>
    intro stack rest
    rw [List.cons_append, bracketFault?_cons hopening hclosing, ih]
  | nest ht _ hu _ ih ih' =>
    intro stack rest
    rw [List.cons_append, bracketFault?_opening ht, List.append_assoc, ih, List.cons_append,
      bracketFault?_closing hu, ih']

/-- An open bracket is closed after a balanced row. -/
theorem exists_closing {t : Token} {stack : List Token} : ∀ {ts : List Token},
    bracketFault? (t :: stack) ts = none → ∃ inner u rest, ts = inner ++ u :: rest ∧
      Balanced inner ∧ u.kind = .closing ∧ bracketFault? stack rest = none
  | [], h => by cases h
  | u :: ts, h => by
    by_cases hopening : u.kind = .opening
    · rw [bracketFault?_opening hopening] at h
      obtain ⟨inner, v, rest, rfl, hinner, hv, hrest⟩ := exists_closing h
      obtain ⟨inner', v', rest', rfl, hinner', hv', hrest'⟩ := exists_closing hrest
      exact ⟨u :: (inner ++ v :: inner'), v', rest', by simp, .nest hopening hinner hv hinner', hv',
        hrest'⟩
    by_cases hclosing : u.kind = .closing
    · rw [bracketFault?_closing hclosing] at h
      exact ⟨[], u, ts, rfl, .nil, hclosing, h⟩
    · rw [bracketFault?_cons hopening hclosing] at h
      obtain ⟨inner, v, rest, rfl, hinner, hv, hrest⟩ := exists_closing h
      exact ⟨u :: inner, v, rest, rfl, .other hopening hclosing hinner, hv, hrest⟩
termination_by ts => ts.length
decreasing_by all_goals (subst_vars; simp only [List.length_cons, List.length_append]; omega)

theorem balanced_of_bracketFault? : ∀ {ts : List Token}, bracketFault? [] ts = none → Balanced ts
  | [], _ => .nil
  | t :: ts, h => by
    by_cases hopening : t.kind = .opening
    · rw [bracketFault?_opening hopening] at h
      obtain ⟨inner, u, rest, rfl, hinner, hu, hrest⟩ := exists_closing h
      exact .nest hopening hinner hu (balanced_of_bracketFault? hrest)
    by_cases hclosing : t.kind = .closing
    · rw [bracketFault?_step, hclosing] at h
      cases h
    · rw [bracketFault?_cons hopening hclosing] at h
      exact .other hopening hclosing (balanced_of_bracketFault? h)
termination_by ts => ts.length

/-- **A row is balanced if the check finds no fault.** -/
theorem balanced_iff : Balanced ts ↔ bracketFault? [] ts = none := by
  refine ⟨fun h => ?_, balanced_of_bracketFault?⟩
  have hfault := h.passes [] []
  rwa [List.append_nil] at hfault

/-- **The check does not notice a deletion**, whatever brackets are open. -/
theorem bracketFault?_deletes (h : Deletes ts us) (stack : List Token) :
    bracketFault? stack ts = bracketFault? stack us := by
  obtain ⟨before, after, ht, hu⟩ := h
  induction before generalizing stack with
  | nil => rw [List.nil_append, List.nil_append, bracketFault?_opening ht, bracketFault?_closing hu]
  | cons v before ih =>
    rw [List.cons_append, List.cons_append, bracketFault?_step, bracketFault?_step]
    split
    · exact ih _
    · exact ih _
    · rfl
    · exact ih _

theorem balanced_deletes_iff (h : Deletes ts us) : Balanced ts ↔ Balanced us := by
  rw [balanced_iff, balanced_iff, bracketFault?_deletes h]

/-- A balanced row does not start with a closing bracket. -/
theorem Balanced.not_closing (ht : t.kind = .closing) : ¬ Balanced (t :: ts) := by
  rw [balanced_iff, bracketFault?_step, ht]
  exact Option.some_ne_none _

/-- A balanced row does not end with an opening bracket. -/
theorem Balanced.not_opening (ht : t.kind = .opening) : ¬ Balanced (ts ++ [t]) := by
  have hfault : ∀ ts stack : List Token, bracketFault? stack (ts ++ [t]) ≠ none := by
    intro ts
    induction ts with
    | nil =>
      intro stack
      rw [List.nil_append, bracketFault?_opening ht]
      exact Option.some_ne_none _
    | cons u ts ih =>
      intro stack
      rw [List.cons_append, bracketFault?_step]
      split
      · exact ih _
      · exact ih _
      · exact Option.some_ne_none _
      · exact ih _
  rw [balanced_iff]
  exact hfault ts []

/-! ### Partners -/

/-- **Two brackets of a row that belong together**: what stands between them is balanced. -/
inductive Partners : List Token → Token → Token → Prop where
  | intro (before inner after : List Token) {t u : Token} : t.kind = .opening → Balanced inner →
    u.kind = .closing → Partners (before ++ t :: (inner ++ u :: after)) t u

/-- **A bracket of a row without a partner.** -/
structure Lone (ts : List Token) (t : Token) : Prop where
  mem : t ∈ ts
  bracket : t.kind = .opening ∨ t.kind = .closing
  unclosed (u : Token) : ¬ Partners ts t u
  unopened (u : Token) : ¬ Partners ts u t

/-- A pair deleted from two rows one after the other was in one of them or the other. -/
theorem Deletes.append_right {a b : List Token} (h : Deletes ts (a ++ b)) :
    (∃ a', ts = a' ++ b ∧ Deletes a' a) ∨ ∃ b', ts = a ++ b' ∧ Deletes b' b := by
  generalize hus : a ++ b = us at h
  obtain ⟨before, after, ht, hu⟩ := h
  rcases List.append_eq_append_iff.mp hus with ⟨x, rfl, rfl⟩ | ⟨x, rfl, rfl⟩
  · exact .inr ⟨_, List.append_assoc .., .pair x after ht hu⟩
  · exact .inl ⟨before ++ _ :: _ :: x, by simp, .pair before x ht hu⟩

/-- A pair deleted from a row was in front of its first token, or somewhere behind. -/
theorem Deletes.cons_right (h : Deletes ts (t :: us)) :
    (∃ x, ts = x ++ t :: us ∧ Deletes x []) ∨ ∃ us', ts = t :: us' ∧ Deletes us' us := by
  generalize hus : t :: us = vs at h
  obtain ⟨before, after, ht, hu⟩ := h
  cases before with
  | nil =>
    obtain rfl : t :: us = after := hus
    exact .inl ⟨[_, _], rfl, .pair [] [] ht hu⟩
  | cons v before =>
    obtain ⟨rfl, rfl⟩ := List.cons.inj hus
    exact .inr ⟨_, rfl, .pair before after ht hu⟩

theorem Deletes.append_left (x : List Token) (h : Deletes ts us) : Deletes (x ++ ts) (x ++ us) := by
  obtain ⟨before, after, ht, hu⟩ := h
  rw [← List.append_assoc, ← List.append_assoc]
  exact .pair _ _ ht hu

/-- **Partners were partners before** an empty pair was deleted. -/
theorem Partners.before_deletion (h : Deletes ts us) {a b : Token} (hab : Partners us a b) :
    Partners ts a b := by
  obtain ⟨before, inner, after, ha, hinner, hb⟩ := hab
  rcases h.append_right with ⟨before', rfl, -⟩ | ⟨ts₁, rfl, h₁⟩
  · exact .intro before' inner after ha hinner hb
  rcases h₁.cons_right with ⟨x, rfl, -⟩ | ⟨ts₂, rfl, h₂⟩
  · rw [← List.append_assoc]
    exact .intro (before ++ x) inner after ha hinner hb
  rcases h₂.append_right with ⟨inner', rfl, hinner'⟩ | ⟨ts₃, rfl, h₃⟩
  · exact .intro before inner' after ha ((balanced_deletes_iff hinner').mpr hinner) hb
  rcases h₃.cons_right with ⟨x, rfl, hx⟩ | ⟨after', rfl, -⟩
  · have hinner' : Deletes (inner ++ x) inner := by simpa using hx.append_left inner
    rw [← List.append_assoc inner]
    exact .intro before (inner ++ x) after ha ((balanced_deletes_iff hinner').mpr hinner) hb
  · exact .intro before inner after' ha hinner hb

/-- Two tokens side by side in two rows one after the other are in the first row, or across the two,
or in the second row. -/
theorem pair_append_cases {before after xs ys : List Token}
    (h : before ++ t :: u :: after = xs ++ ys) :
    (∃ rest, xs = before ++ t :: u :: rest ∧ after = rest ++ ys) ∨
      (xs = before ++ [t] ∧ ys = u :: after) ∨
      ∃ rest, ys = rest ++ t :: u :: after ∧ before = xs ++ rest := by
  rcases List.append_eq_append_iff.mp h with ⟨x, rfl, hx⟩ | ⟨x, rfl, hx⟩
  · match x, hx with
    | [], hx => exact .inr (.inr ⟨[], hx.symm, by simp⟩)
    | [_], hx =>
      obtain ⟨rfl, rfl⟩ := List.cons.inj hx
      exact .inr (.inl ⟨rfl, rfl⟩)
    | _ :: _ :: x, hx =>
      obtain ⟨rfl, htail⟩ := List.cons.inj hx
      obtain ⟨rfl, rfl⟩ := List.cons.inj htail
      exact .inl ⟨x, rfl, rfl⟩
  · exact .inr (.inr ⟨x, hx, rfl⟩)

/-- **Partners are partners still** after an empty pair is deleted, unless they are that pair. -/
theorem Partners.after_deletion {before after : List Token} (ht : t.kind = .opening)
    (hu : u.kind = .closing) {a b : Token} (hab : Partners (before ++ t :: u :: after) a b) :
    (a = t ∧ b = u) ∨ Partners (before ++ after) a b := by
  generalize hrow : before ++ t :: u :: after = row at hab
  obtain ⟨before', inner, after', ha, hinner, hb⟩ := hab
  rcases pair_append_cases hrow with ⟨rest, rfl, rfl⟩ | ⟨-, hcons⟩ | ⟨rest, hrest, rfl⟩
  · rw [← List.append_assoc]
    exact .inr (.intro (before ++ rest) inner after' ha hinner hb)
  · obtain rfl := (List.cons.inj hcons).1
    exact absurd (ha.symm.trans hu) (by decide)
  cases rest with
  | nil =>
    obtain ⟨rfl, htail⟩ := List.cons.inj hrest
    cases inner with
    | nil => exact .inl ⟨rfl, (List.cons.inj htail).1⟩
    | cons v inner =>
      obtain ⟨rfl, -⟩ := List.cons.inj htail
      exact absurd hinner (Balanced.not_closing hu)
  | cons v rest =>
    obtain ⟨rfl, htail⟩ := List.cons.inj hrest
    right
    rcases pair_append_cases htail.symm with ⟨rest', rfl, rfl⟩ | ⟨rfl, -⟩ | ⟨rest', hrest', rfl⟩
    · have hinner' := (balanced_deletes_iff (.pair rest rest' ht hu)).mp hinner
      simpa using Partners.intro before' (rest ++ rest') after' ha hinner' hb
    · exact absurd hinner (Balanced.not_opening ht)
    · cases rest' with
      | nil =>
        obtain rfl := (List.cons.inj hrest').1
        exact absurd (ht.symm.trans hb) (by decide)
      | cons v rest' =>
        obtain ⟨rfl, rfl⟩ := List.cons.inj hrest'
        simpa using Partners.intro before' inner (rest' ++ after) ha hinner hb

/-- **The brackets without a partner are the same** before and after an empty pair is deleted. -/
theorem lone_deletes_iff (h : Deletes ts us) (hnodup : ts.Nodup) {v : Token} :
    Lone ts v ↔ Lone us v := by
  have hbefore {a b : Token} : Partners us a b → Partners ts a b := .before_deletion h
  obtain @⟨before, after, t, u, ht, hu⟩ := h
  constructor
  · intro hv
    have hpair := Partners.intro before [] after ht .nil hu
    refine ⟨?_, hv.bracket, fun w hw => hv.unclosed w (hbefore hw),
      fun w hw => hv.unopened w (hbefore hw)⟩
    rcases List.mem_append.mp hv.mem with hmem | hmem
    · exact List.mem_append_left _ hmem
    rcases List.mem_cons.mp hmem with rfl | hmem
    · exact absurd hpair (hv.unclosed _)
    rcases List.mem_cons.mp hmem with rfl | hmem
    · exact absurd hpair (hv.unopened _)
    · exact List.mem_append_right _ hmem
  · intro hv
    have hrest := List.nodup_cons.mp (List.nodup_middle.mp hnodup)
    have hsublist : (before ++ after).Sublist (before ++ u :: after) :=
      (List.sublist_cons_self u after).append_left before
    have hne : v ≠ t := fun heq => hrest.1 (hsublist.subset (heq ▸ hv.mem))
    have hne' : v ≠ u := fun heq =>
      (List.nodup_cons.mp (List.nodup_middle.mp hrest.2)).1 (heq ▸ hv.mem)
    have hsublist' := (List.sublist_cons_self t (u :: after)).append_left before
    refine ⟨hsublist'.subset (hsublist.subset hv.mem), hv.bracket, fun w hw => ?_, fun w hw => ?_⟩
    · rcases hw.after_deletion ht hu with ⟨heq, -⟩ | hw
      · exact hne heq
      · exact hv.unclosed w hw
    · rcases hw.after_deletion ht hu with ⟨-, heq⟩ | hw
      · exact hne' heq
      · exact hv.unopened w hw

/-- **Any deletions** leave the same brackets without a partner, and the same fault to find. -/
theorem lone_and_fault_of_deletes (h : ReflTransGen Deletes ts us) (hnodup : ts.Nodup) :
    us.Nodup ∧ (∀ v, Lone ts v ↔ Lone us v) ∧ bracketFault? [] ts = bracketFault? [] us := by
  induction h with
  | refl => exact ⟨hnodup, fun _ => Iff.rfl, rfl⟩
  | tail _ hstep ih =>
    obtain ⟨hnodup, hlone, hfault⟩ := ih
    exact ⟨hnodup.sublist hstep.sublist, fun v => (hlone v).trans (lone_deletes_iff hstep hnodup),
      hfault.trans (bracketFault?_deletes hstep [])⟩

/-! ### The tokens of a reader -/

/-- Tokens of a text take up some place each. -/
theorem start_lt_stop (text : List Char) : ∀ t ∈ Token.scan text, t.span.start < t.span.stop := by
  intro t ht
  obtain ⟨c, cs, hlexeme⟩ := List.exists_cons_of_ne_nil ((Token.munches_scan text).ne_nil t ht)
  have hpos : 0 < Text.bytes t.lexeme := by
    rw [hlexeme]
    exact Nat.add_pos_left c.utf8Size_pos _
  exact Nat.lt_add_of_pos_right hpos

theorem nodup_scan (text : List Char) : (Token.scan text).Nodup := by
  have hordered := (Token.munches_scan text).fills.ordered
  refine hordered.imp_of_mem fun {t u} ht _ hle heq => ?_
  have hlt := start_lt_stop text t ht
  subst heq
  exact absurd hlt (Nat.not_lt.mpr hle)

/-- **Empty pairs are deleted exactly.** The tokens that a reader of a text starts with are among
those of the text, at later and later places. They are what deleting adjacent pairs of brackets from
the tokens other than layout comes to: deletions lead there, no pair is left, whatever is deleted
first can go on to there, and deleting can end nowhere else and does end. The brackets without a
partner are exactly those of the text, and the check finds the same fault. -/
theorem empty_pairs_deleted_exactly (text : List Char) :
    let whole := dropLayout (Token.scan text)
    let stored := (ofChars text).tokens
    (stored.Sublist (Token.scan text) ∧ (∀ t ∈ stored, t.span.start < t.span.stop) ∧
      stored.Pairwise fun t u => t.span.stop ≤ u.span.start) ∧
    (ReflTransGen Deletes whole stored ∧ Normal stored) ∧
    (∀ us, ReflTransGen Deletes whole us →
      ReflTransGen Deletes us stored ∧ (Normal us → us = stored)) ∧
    (WellFounded fun us ts => Deletes ts us) ∧
    (∀ t, Lone whole t ↔ Lone stored t) ∧ bracketFault? [] whole = bracketFault? [] stored := by
  intro whole stored
  have hsublist : stored.Sublist (Token.scan text) := ahead_sublist text
  have hstored : stored = dropEmptyPairs whole := rfl
  have hdeletes : ReflTransGen Deletes whole stored := deletes_dropEmptyPairs whole
  have hnodup : whole.Nodup := (nodup_scan text).sublist List.filter_sublist
  have hconverges (us : List Token) (h : ReflTransGen Deletes whole us) :
      dropEmptyPairs us = stored := (dropEmptyPairs_eq_of_deletes h).symm
  refine ⟨⟨hsublist, fun t ht => start_lt_stop text t (hsublist.subset ht), ?_⟩,
    ⟨hdeletes, normal_dropEmptyPairs whole⟩, fun us h => ⟨?_, fun hnormal => ?_⟩,
    wellFounded_deletes, (lone_and_fault_of_deletes hdeletes hnodup).2⟩
  · exact (Token.munches_scan text).fills.ordered.sublist hsublist
  · exact hconverges us h ▸ deletes_dropEmptyPairs us
  · exact (dropEmptyPairs_normal hnormal).symm.trans (hconverges us h)

end SymbolicAlgebra.Reader
