import Mathlib.Data.List.Chain
import Mathlib.Logic.Relation
import SymbolicAlgebra.Reader.Cursor

/-! # Empty pairs of brackets

A reader removes empty pairs of brackets in one pass over the tokens, from left to right. What it
comes to is what is left when adjacent pairs are deleted one by one for as long as there are any, in
whatever order: the pass does not notice a deletion (`dropEmptyPairs_deletes`), it can be done by
deletions (`deletes_dropEmptyPairs`), and it leaves no pair behind (`normal_dropEmptyPairs`). -/

namespace SymbolicAlgebra.Reader

open Relation (ReflTransGen)

variable {ts us kept : List Token} {t u : Token}

/-- **One deletion**: an opening bracket and a closing bracket right after it go. -/
inductive Deletes : List Token → List Token → Prop where
  | pair (before after : List Token) {t u : Token} : t.kind = .opening → u.kind = .closing →
    Deletes (before ++ t :: u :: after) (before ++ after)

/-- There is nothing to delete. -/
def Normal (ts : List Token) : Prop := ∀ us, ¬ Deletes ts us

/-- Two tokens that are not an empty pair. -/
def NoPair (t u : Token) : Prop := t.kind = .opening → u.kind ≠ .closing

theorem Deletes.length_eq (h : Deletes ts us) : ts.length = us.length + 2 := by
  cases h
  simp [Nat.add_assoc]

theorem Deletes.sublist (h : Deletes ts us) : us.Sublist ts := by
  obtain ⟨before, after, -, -⟩ := h
  exact ((List.sublist_cons_self _ _).trans (List.sublist_cons_self _ _)).append_left before

/-- Deletions come to an end. -/
theorem wellFounded_deletes : WellFounded fun us ts => Deletes ts us := by
  refine Subrelation.wf (fun {us ts} h => ?_) (measure List.length).wf
  show us.length < ts.length
  rw [h.length_eq]
  omega

theorem normal_iff : Normal ts ↔ ts.IsChain NoPair := by
  rw [List.isChain_iff_forall_rel_of_append_cons_cons]
  constructor
  · rintro h t u before after rfl ht hu
    exact h _ (.pair before after ht hu)
  · rintro h _ ⟨before, after, ht, hu⟩
    exact h rfl ht hu

/-! ### The pass -/

theorem keep_pair (ht : t.kind = .opening) (hu : u.kind = .closing) (kept : List Token) :
    keep (t :: kept) u = kept := by
  obtain ⟨_, slice⟩ := t
  cases ht
  unfold keep
  rw [hu]

theorem keep_noPair (h : ∀ t ∈ kept.head?, NoPair t u) : keep kept u = u :: kept := by
  unfold keep
  split
  · next hu => exact absurd hu (h _ rfl rfl)
  · rfl

/-- The next token goes together with the last one kept, or it is kept too. -/
theorem keep_cases (kept : List Token) (u : Token) :
    (∃ t earlier, kept = t :: earlier ∧ t.kind = .opening ∧ u.kind = .closing ∧
      keep kept u = earlier) ∨
    (∀ t ∈ kept.head?, NoPair t u) ∧ keep kept u = u :: kept := by
  by_cases h : ∀ t ∈ kept.head?, NoPair t u
  · exact .inr ⟨h, keep_noPair h⟩
  · simp only [NoPair, not_forall, not_not] at h
    obtain ⟨t, hhead, ht, hu⟩ := h
    obtain ⟨earlier, rfl⟩ : ∃ earlier, kept = t :: earlier :=
      ⟨kept.tail, (List.cons_head?_tail hhead).symm⟩
    exact .inl ⟨t, earlier, rfl, ht, hu, keep_pair ht hu earlier⟩

/-- A row without pairs is kept. -/
theorem foldl_keep : ∀ {ts kept : List Token}, (kept.reverse ++ ts).IsChain NoPair →
    ts.foldl keep kept = ts.reverse ++ kept
  | [], _, _ => rfl
  | t :: ts, kept, h => by
    have hkeep : keep kept t = t :: kept := keep_noPair fun u hu => by
      obtain ⟨-, -, hsides⟩ := List.isChain_append.mp h
      exact hsides u (by rwa [List.getLast?_reverse]) t rfl
    rw [List.foldl_cons, hkeep, foldl_keep (by simpa using h), List.reverse_cons, List.append_assoc,
      List.singleton_append]

theorem dropEmptyPairs_normal (h : Normal ts) : dropEmptyPairs ts = ts := by
  have hfold : ts.foldl keep [] = ts.reverse ++ [] := foldl_keep (normal_iff.mp h)
  rw [dropEmptyPairs, hfold, List.append_nil, List.reverse_reverse]

/-- **The pass does not notice a deletion**, wherever the pair was. -/
theorem dropEmptyPairs_deletes (h : Deletes ts us) : dropEmptyPairs ts = dropEmptyPairs us := by
  cases h with
  | @pair before after t u ht hu =>
    have hopening (kept : List Token) : keep kept t = t :: kept :=
      keep_noPair fun _ _ _ => by rw [ht]; decide
    rw [dropEmptyPairs, dropEmptyPairs, List.foldl_append, List.foldl_append, List.foldl_cons,
      List.foldl_cons, hopening, keep_pair ht hu]

/-- What is kept so far and what is still to come, step by step. -/
theorem deletes_foldl_keep : ∀ (ts kept : List Token),
    ReflTransGen Deletes (kept.reverse ++ ts) (ts.foldl keep kept).reverse
  | [], kept => by
    rw [List.append_nil]
    exact .refl
  | u :: ts, kept => by
    have hrest := deletes_foldl_keep ts (keep kept u)
    rw [List.foldl_cons]
    rcases keep_cases kept u with ⟨t, earlier, rfl, ht, hu, hkeep⟩ | ⟨-, hkeep⟩
    · rw [hkeep] at hrest ⊢
      rw [List.reverse_cons, List.append_assoc, List.singleton_append]
      exact .head (.pair _ _ ht hu) hrest
    · rw [hkeep] at hrest ⊢
      rwa [List.reverse_cons, List.append_assoc, List.singleton_append] at hrest

/-- **The pass can be done by deletions.** -/
theorem deletes_dropEmptyPairs (ts : List Token) : ReflTransGen Deletes ts (dropEmptyPairs ts) :=
  deletes_foldl_keep ts []

/-- What is kept has no pair in it. -/
theorem isChain_foldl_keep : ∀ (ts : List Token) {kept : List Token},
    kept.IsChain (fun u t => NoPair t u) → (ts.foldl keep kept).IsChain fun u t => NoPair t u
  | [], _, h => h
  | u :: ts, kept, h => by
    rw [List.foldl_cons]
    refine isChain_foldl_keep ts ?_
    rcases keep_cases kept u with ⟨t, earlier, rfl, -, -, hkeep⟩ | ⟨hhead, hkeep⟩
    · rw [hkeep]
      exact h.tail
    · rw [hkeep]
      exact List.isChain_cons.mpr ⟨hhead, h⟩

/-- **The pass leaves no pair behind.** -/
theorem normal_dropEmptyPairs (ts : List Token) : Normal (dropEmptyPairs ts) :=
  normal_iff.mpr (List.isChain_reverse.mpr (isChain_foldl_keep ts .nil))

/-- **Any deletions** come to the same in the end. -/
theorem dropEmptyPairs_eq_of_deletes (h : ReflTransGen Deletes ts us) :
    dropEmptyPairs ts = dropEmptyPairs us := by
  induction h with
  | refl => rfl
  | tail _ hstep ih => rw [ih, dropEmptyPairs_deletes hstep]

theorem sublist_of_deletes (h : ReflTransGen Deletes ts us) : us.Sublist ts := by
  induction h with
  | refl => exact List.Sublist.refl ts
  | tail _ hstep ih => exact hstep.sublist.trans ih

/-- The tokens to read are among those of the text, in their order. -/
theorem ahead_sublist (text : List Char) : (ofChars text).ahead.Sublist (Token.scan text) :=
  (sublist_of_deletes (deletes_dropEmptyPairs _)).trans List.filter_sublist

end SymbolicAlgebra.Reader
