/-! # Sets of variables

A variable is a single character. A set of variables is the ascending list of its members, so two
sets with the same members are equal. -/

namespace SymbolicAlgebra

/-- A finite set of variables, as the ascending list of its members. -/
structure VarSet where
  toList : List Char
  ascending : toList.Pairwise (· < ·)
  deriving DecidableEq

namespace VarSet

/-- The ascending list with `c` added. -/
def insertInto (c : Char) : List Char → List Char
  | [] => [c]
  | d :: ds => if c < d then c :: d :: ds else if c = d then d :: ds else d :: insertInto c ds

theorem mem_insertInto {c x : Char} :
    ∀ {ds : List Char}, x ∈ insertInto c ds ↔ x = c ∨ x ∈ ds
  | [] => by simp [insertInto]
  | d :: ds => by
    unfold insertInto
    split
    · simp
    · split
      · next h => subst h; simp
      · simp only [List.mem_cons, @mem_insertInto c x ds]
        exact or_left_comm

theorem pairwise_insertInto {c : Char} :
    ∀ {ds : List Char}, ds.Pairwise (· < ·) → (insertInto c ds).Pairwise (· < ·)
  | [], _ => by simp [insertInto]
  | d :: ds, h => by
    obtain ⟨hd, hds⟩ := List.pairwise_cons.mp h
    unfold insertInto
    split
    · next hcd =>
      refine List.pairwise_cons.mpr ⟨fun x hx => ?_, h⟩
      rcases List.mem_cons.mp hx with rfl | hx
      · exact hcd
      · exact Char.lt_trans hcd (hd x hx)
    · next hcd =>
      split
      · exact h
      · next hne =>
        refine List.pairwise_cons.mpr ⟨fun x hx => ?_, pairwise_insertInto hds⟩
        rcases mem_insertInto.mp hx with rfl | hx
        · exact Char.not_le.mp fun hle => hne (Char.le_antisymm hle (Char.not_lt.mp hcd))
        · exact hd x hx

instance : EmptyCollection VarSet := ⟨⟨[], .nil⟩⟩

instance : Membership Char VarSet := ⟨fun s c => c ∈ s.toList⟩

/-- The set with one variable added. -/
def insert (c : Char) (s : VarSet) : VarSet :=
  ⟨insertInto c s.toList, pairwise_insertInto s.ascending⟩

/-- The variables of either set. -/
def union (s t : VarSet) : VarSet := t.toList.foldr insert s

/-- The set of the variables of a list. -/
def ofList (cs : List Char) : VarSet := cs.foldr insert ∅

@[simp] theorem not_mem_empty {c : Char} : ¬c ∈ (∅ : VarSet) := List.not_mem_nil

@[simp] theorem mem_insert {c d : Char} {s : VarSet} : d ∈ s.insert c ↔ d = c ∨ d ∈ s :=
  mem_insertInto

theorem mem_foldr_insert {d : Char} {s : VarSet} :
    ∀ {cs : List Char}, d ∈ cs.foldr insert s ↔ d ∈ cs ∨ d ∈ s
  | [] => by simp
  | c :: cs => by simp [@mem_foldr_insert d s cs, or_assoc]

@[simp] theorem mem_union {d : Char} {s t : VarSet} : d ∈ s.union t ↔ d ∈ s ∨ d ∈ t :=
  mem_foldr_insert.trans or_comm

@[simp] theorem mem_ofList {d : Char} {cs : List Char} : d ∈ ofList cs ↔ d ∈ cs := by
  simp [ofList, mem_foldr_insert]

end VarSet

end SymbolicAlgebra
