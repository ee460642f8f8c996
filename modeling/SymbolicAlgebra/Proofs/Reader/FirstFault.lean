import SymbolicAlgebra.Proofs.Reader.Causes
import SymbolicAlgebra.Proofs.Reader.Partners

/-! # The first fault of a row

The checks before reading report the first of the faults that a row of tokens can have, in an order
that is stated here without them (`FirstFault`). Their scan of the brackets keeps the open ones on a
stack, and the stack is what the row leaves open (`LeavesOpen`): the brackets without a partner,
with balanced rows in between. Any row either leaves some brackets open or closes one too many
(`leavesOpen_or_closes`), which decides the check of brackets. Since the parser has no such faults
(`Read.sparing`), a text has them only as its row of tokens does (`first_fault_reported`). -/

namespace SymbolicAlgebra.Reader

open Grammar (bracketFault?_cons bracketFault?_opening bracketFault?_closing)

variable {ts us : List Token} {t u : Token} {stack : List Token}

/-! ### What the faults of a row are -/

/-- How many brackets of the row open. -/
def opened (ts : List Token) : Nat := ts.countP fun t => t.kind == .opening

/-- How many brackets of the row close. -/
def closed (ts : List Token) : Nat := ts.countP fun t => t.kind == .closing

/-- **No beginning of the row** has more closing brackets than opening ones. -/
def Covered (ts : List Token) : Prop := ∀ start, start <+: ts → closed start ≤ opened start

/-- **The row closes a bracket in front of it**: an opening bracket with this row behind it has its
partner there, and without one a bracket of the row closes nothing. -/
def Closes (ts : List Token) : Prop :=
  ∃ inner u after, ts = inner ++ u :: after ∧ Balanced inner ∧ u.kind = .closing

/-- **The last token of the shortest beginning** with more closing brackets than opening ones. -/
inductive Overcloses : List Token → Token → Prop where
  | intro (before after : List Token) {t : Token} : Covered before →
    opened (before ++ [t]) < closed (before ++ [t]) → Overcloses (before ++ t :: after) t

/-- **The last opening bracket without a partner.** -/
inductive LastUnclosed : List Token → Token → Prop where
  | intro (before after : List Token) {t : Token} : t.kind = .opening → ¬ Closes after →
    (∀ inner u rest, after = inner ++ u :: rest → u.kind = .opening → Closes rest) →
    LastUnclosed (before ++ t :: after) t

/-- **Two operators that may not stand side by side**: only a minus may follow another one, and only
a product, quotient or power sign. -/
def Clash (t u : Token) : Prop :=
  t.kind.isOperator = true ∧ u.kind.isOperator = true ∧
    ¬ (u.kind = .minus ∧ (t.kind = .times ∨ t.kind = .slash ∨ t.kind = .caret))

/-- No token of the row is a symbol. -/
def NoSymbol (ts : List Token) : Prop := ∀ t ∈ ts, t.kind ≠ .symbol

/-- **A row without faults.** -/
structure Faultless (ts : List Token) : Prop where
  ne_nil : ts ≠ []
  noSymbol : NoSymbol ts
  balanced : Balanced ts
  chain : ts.IsChain fun t u => ¬ Clash t u

/-- **The first fault of a row** of tokens from a text of the given length: that there is none, the
first symbol, the first closing bracket without a partner, the last opening one, the first two
operators that clash. Each is a fault of the row only if it has none of those before. -/
inductive FirstFault (length : Nat) : List Token → Fault → Prop where
  | empty : FirstFault length [] (.on ⟨0, length⟩ .emptyExpression)
  | symbol (before after : List Token) {t : Token} : NoSymbol before → t.kind = .symbol →
    FirstFault length (before ++ t :: after) (.on t.span (.invalidCharacter t.slice.toString))
  | closing {ts : List Token} {t : Token} : NoSymbol ts → Overcloses ts t →
    FirstFault length ts (.on t.span (.unclosedBracket false))
  | opening {ts : List Token} {t : Token} : NoSymbol ts → Covered ts → LastUnclosed ts t →
    FirstFault length ts (.on t.span (.unclosedBracket true))
  | operators (before after : List Token) {t u : Token} : NoSymbol (before ++ t :: u :: after) →
    Balanced (before ++ t :: u :: after) → (before ++ [t]).IsChain (fun t u => ¬ Clash t u) →
    Clash t u → FirstFault length (before ++ t :: u :: after)
      ⟨[t.span, u.span], .doubledOperator t.slice.toString u.slice.toString⟩

/-! ### Counts -/

theorem opened_append (ts us : List Token) : opened (ts ++ us) = opened ts + opened us :=
  List.countP_append

theorem closed_append (ts us : List Token) : closed (ts ++ us) = closed ts + closed us :=
  List.countP_append

theorem counts_opening (ht : t.kind = .opening) (ts : List Token) :
    opened (t :: ts) = opened ts + 1 ∧ closed (t :: ts) = closed ts := by
  simp [opened, closed, ht]

theorem counts_closing (ht : t.kind = .closing) (ts : List Token) :
    opened (t :: ts) = opened ts ∧ closed (t :: ts) = closed ts + 1 := by
  simp [opened, closed, ht]

theorem counts_other (hopening : t.kind ≠ .opening) (hclosing : t.kind ≠ .closing)
    (ts : List Token) : opened (t :: ts) = opened ts ∧ closed (t :: ts) = closed ts := by
  simp [opened, closed, hopening, hclosing]

theorem Balanced.opened_eq (h : Balanced ts) : opened ts = closed ts := by
  induction h with
  | nil => rfl
  | other hopening hclosing _ ih =>
    rw [(counts_other hopening hclosing _).1, (counts_other hopening hclosing _).2, ih]
  | @nest t u ts us ht _ hu _ ih ih' =>
    rw [(counts_opening ht _).1, (counts_opening ht _).2, opened_append, closed_append,
      (counts_closing hu us).1, (counts_closing hu us).2]
    omega

theorem Balanced.append (h : Balanced ts) (h' : Balanced us) : Balanced (ts ++ us) := by
  induction h with
  | nil => exact h'
  | other hopening hclosing _ ih => exact .other hopening hclosing ih
  | nest ht hinner hu _ _ ih =>
    rw [List.cons_append, List.append_assoc, List.cons_append]
    exact .nest ht hinner hu ih

/-! ### What a row leaves open -/

/-- **The row leaves these brackets open**, the last one first, and is balanced between them. -/
inductive LeavesOpen : List Token → List Token → Prop where
  | balanced {ts : List Token} : Balanced ts → LeavesOpen [] ts
  | opening {stack before after : List Token} {t : Token} : LeavesOpen stack before →
    t.kind = .opening → Balanced after → LeavesOpen (t :: stack) (before ++ t :: after)

namespace LeavesOpen

theorem append (h : LeavesOpen stack ts) (hus : Balanced us) : LeavesOpen stack (ts ++ us) := by
  cases h with
  | balanced hts => exact .balanced (hts.append hus)
  | opening hbefore ht hafter =>
    rw [List.append_assoc]
    exact .opening hbefore ht (hafter.append hus)

/-- A closing bracket closes the last open one. -/
theorem close (h : LeavesOpen (t :: stack) ts) (hu : u.kind = .closing) :
    LeavesOpen stack (ts ++ [u]) := by
  obtain _ | ⟨hbefore, ht, hafter⟩ := h
  rw [List.append_assoc]
  exact hbefore.append (.nest ht hafter hu .nil)

theorem opened_eq (h : LeavesOpen stack ts) : opened ts = closed ts + stack.length := by
  induction h with
  | balanced hts => exact hts.opened_eq
  | opening _ ht hafter ih =>
    rw [opened_append, closed_append, (counts_opening ht _).1, (counts_opening ht _).2, ih,
      hafter.opened_eq, List.length_cons]
    omega

/-- **The check comes to the open brackets** when it is through with the row. -/
theorem passes (h : LeavesOpen stack ts) : ∀ rest : List Token,
    bracketFault? [] (ts ++ rest) = bracketFault? stack rest := by
  induction h with
  | balanced hts => exact hts.passes []
  | opening _ ht hafter ih =>
    intro rest
    rw [List.append_assoc, ih, List.cons_append, bracketFault?_opening ht, hafter.passes]

theorem bracketFault?_eq (h : LeavesOpen stack ts) :
    bracketFault? [] ts = stack.head?.map fun t => .on t.span (.unclosedBracket true) := by
  have hpasses := h.passes []
  rw [List.append_nil] at hpasses
  rw [hpasses]
  cases stack <;> rfl

end LeavesOpen

theorem bracketFault?_closes (hts : Balanced ts) (hu : u.kind = .closing) (after : List Token) :
    bracketFault? [] (ts ++ u :: after) = some (.on u.span (.unclosedBracket false)) := by
  rw [hts.passes, bracketFault?_step, hu]

/-- **What happens to the brackets of a row**: some are left open, or one closes nothing in it. By
induction on the last token. -/
theorem leavesOpen_or_closes (ts : List Token) : (∃ stack, LeavesOpen stack ts) ∨ Closes ts := by
  induction ts using List.reverseRecOn with
  | nil => exact .inl ⟨[], .balanced .nil⟩
  | append_singleton ts t ih =>
    obtain ⟨stack, hstack⟩ | ⟨inner, u, after, rfl, hinner, hu⟩ := ih
    · by_cases hopening : t.kind = .opening
      · exact .inl ⟨t :: stack, .opening hstack hopening .nil⟩
      by_cases hclosing : t.kind = .closing
      · cases stack with
        | nil =>
          obtain hts | _ := hstack
          exact .inr ⟨ts, t, [], rfl, hts, hclosing⟩
        | cons u stack => exact .inl ⟨stack, hstack.close hclosing⟩
      · exact .inl ⟨stack, hstack.append (.other hopening hclosing .nil)⟩
    · exact .inr ⟨inner, u, after ++ [t], by simp, hinner, hu⟩

/-- The two are told apart by the fault that the check finds. -/
theorem LeavesOpen.not_closes (h : LeavesOpen stack ts) : ¬ Closes ts := by
  rintro ⟨inner, u, after, rfl, hinner, hu⟩
  have hfault := h.bracketFault?_eq
  rw [bracketFault?_closes hinner hu] at hfault
  cases stack with
  | nil => cases hfault
  | cons t stack => simp [Fault.on] at hfault

theorem Closes.append (h : Closes ts) (us : List Token) : Closes (ts ++ us) := by
  obtain ⟨inner, u, after, rfl, hinner, hu⟩ := h
  exact ⟨inner, u, after ++ us, by simp, hinner, hu⟩

/-- **A covered row is one that leaves some brackets open.** -/
theorem covered_iff : Covered ts ↔ ∃ stack, LeavesOpen stack ts := by
  constructor
  · intro h
    refine (leavesOpen_or_closes ts).resolve_right ?_
    rintro ⟨inner, u, after, rfl, hinner, hu⟩
    have hle := h (inner ++ [u]) ⟨after, by simp⟩
    have hcounts := counts_closing hu []
    rw [opened_append, closed_append, hcounts.1, hcounts.2, hinner.opened_eq] at hle
    exact absurd hle (Nat.not_le.mpr (Nat.lt_succ_self _))
  · rintro ⟨stack, h⟩ start ⟨rest, rfl⟩
    obtain ⟨stack', hstart⟩ | hcloses := leavesOpen_or_closes start
    · rw [hstart.opened_eq]
      exact Nat.le_add_right _ _
    · exact absurd (hcloses.append rest) h.not_closes

/-- **A balanced row by counting**: it is covered, and has as many brackets of both kinds. -/
theorem balanced_iff_covered : Balanced ts ↔ Covered ts ∧ opened ts = closed ts := by
  constructor
  · exact fun h => ⟨covered_iff.mpr ⟨[], .balanced h⟩, h.opened_eq⟩
  · rintro ⟨hcovered, heq⟩
    obtain ⟨stack, hstack⟩ := covered_iff.mp hcovered
    have hnil : stack = [] := by
      rw [← List.length_eq_zero_iff]
      have hcount := hstack.opened_eq
      omega
    subst hnil
    obtain hbalanced | _ := hstack
    exact hbalanced

/-- A bracket that closes too much is a closing one after a balanced row. -/
theorem overclosed_iff {before : List Token} :
    Covered before ∧ opened (before ++ [t]) < closed (before ++ [t]) ↔
      Balanced before ∧ t.kind = .closing := by
  rw [opened_append, closed_append, balanced_iff_covered]
  constructor
  · rintro ⟨hcovered, hlt⟩
    have hle := hcovered before (List.prefix_refl before)
    by_cases hclosing : t.kind = .closing
    · rw [(counts_closing hclosing []).1, (counts_closing hclosing []).2] at hlt
      exact ⟨⟨hcovered, Nat.le_antisymm (Nat.lt_succ_iff.mp hlt) hle⟩, hclosing⟩
    · have hclosed : closed [t] = 0 := by simp [closed, hclosing]
      omega
  · rintro ⟨⟨hcovered, heq⟩, ht⟩
    refine ⟨hcovered, ?_⟩
    rw [(counts_closing ht []).1, (counts_closing ht []).2, heq]
    exact Nat.lt_succ_self _

/-- **All brackets of a row have partners in it** if and only if it is balanced, provided that it
closes nothing in front of it. -/
theorem balanced_iff_all_closed (h : ¬ Closes ts) :
    Balanced ts ↔ ∀ inner u rest, ts = inner ++ u :: rest → u.kind = .opening → Closes rest := by
  constructor
  · rintro hts inner u rest rfl hu
    rw [balanced_iff] at hts
    obtain ⟨stack, hstack⟩ | ⟨x, v, y, rfl, hx, hv⟩ := leavesOpen_or_closes inner
    · rw [hstack.passes, bracketFault?_opening hu] at hts
      obtain ⟨inner', v, rest', rfl, hinner', hv, -⟩ := exists_closing hts
      exact ⟨inner', v, rest', rfl, hinner', hv⟩
    · rw [List.append_assoc, List.cons_append, bracketFault?_closes hx hv] at hts
      cases hts
  · intro hall
    obtain ⟨stack, hstack⟩ := (leavesOpen_or_closes ts).resolve_right h
    cases hstack with
    | balanced hts => exact hts
    | opening _ ht hafter =>
      exact absurd (hall _ _ _ rfl ht) (LeavesOpen.balanced hafter).not_closes

/-! ### The checks -/

/-- **The check of brackets** finds the first closing bracket that closes nothing, and if there is
none the last opening bracket that nothing closes. -/
theorem bracketFault?_eq_some_iff {fault : Fault} :
    bracketFault? [] ts = some fault ↔
      (∃ t, Overcloses ts t ∧ fault = .on t.span (.unclosedBracket false)) ∨
        Covered ts ∧ ∃ t, LastUnclosed ts t ∧ fault = .on t.span (.unclosedBracket true) := by
  constructor
  · intro h
    obtain ⟨stack, hstack⟩ | ⟨inner, u, after, rfl, hinner, hu⟩ := leavesOpen_or_closes ts
    · rw [hstack.bracketFault?_eq] at h
      right
      refine ⟨covered_iff.mpr ⟨stack, hstack⟩, ?_⟩
      cases hstack with
      | balanced _ => cases h
      | @opening stack before after t _ ht hafter =>
        have hcloses := (LeavesOpen.balanced hafter).not_closes
        have hall := (balanced_iff_all_closed hcloses).mp hafter
        exact ⟨t, .intro before after ht hcloses hall, (Option.some.inj h).symm⟩
    · rw [bracketFault?_closes hinner hu] at h
      obtain ⟨hcovered, hlt⟩ := overclosed_iff.mpr ⟨hinner, hu⟩
      exact .inl ⟨u, .intro inner after hcovered hlt, (Option.some.inj h).symm⟩
  · rintro (⟨t, hcloses, rfl⟩ | ⟨hcovered, t, hlast, rfl⟩)
    · obtain ⟨before, after, hcovered, hlt⟩ := hcloses
      obtain ⟨hbefore, ht⟩ := overclosed_iff.mp ⟨hcovered, hlt⟩
      exact bracketFault?_closes hbefore ht after
    · obtain ⟨before, after, ht, hcloses, hall⟩ := hlast
      have hafter := (balanced_iff_all_closed hcloses).mpr hall
      obtain ⟨stack, hstack⟩ := covered_iff.mp fun start hstart =>
        hcovered start (hstart.trans (List.prefix_append before _))
      rw [(LeavesOpen.opening hstack ht hafter).bracketFault?_eq]
      rfl

theorem emptyFault?_eq_none_iff {length : Nat} : emptyFault? length ts = none ↔ ts ≠ [] := by
  cases ts <;> simp [emptyFault?]

theorem emptyFault?_eq_some_iff {length : Nat} {fault : Fault} :
    emptyFault? length ts = some fault ↔ ts = [] ∧ fault = .on ⟨0, length⟩ .emptyExpression := by
  cases ts <;> simp [emptyFault?, eq_comm]

theorem symbolFault?_eq_none_iff : symbolFault? ts = none ↔ NoSymbol ts := by
  simp [symbolFault?, NoSymbol]

theorem symbolFault?_eq_some_iff {fault : Fault} :
    symbolFault? ts = some fault ↔ ∃ before t after, ts = before ++ t :: after ∧ NoSymbol before ∧
      t.kind = .symbol ∧ fault = .on t.span (.invalidCharacter t.slice.toString) := by
  rw [symbolFault?, Option.map_eq_some_iff]
  simp only [List.find?_eq_some_iff_append, beq_iff_eq, Bool.not_eq_true', beq_eq_false_iff_ne]
  constructor
  · rintro ⟨t, ⟨ht, before, after, rfl, hbefore⟩, rfl⟩
    exact ⟨before, t, after, rfl, hbefore, ht, rfl⟩
  · rintro ⟨before, t, after, rfl, hbefore, ht, rfl⟩
    exact ⟨t, ⟨ht, before, after, rfl, hbefore⟩, rfl⟩

theorem clash_iff : Clash t u ↔
    (t.kind.isOperator && u.kind.isOperator && !mayFollow t.kind u.kind) = true := by
  simp only [Clash, mayFollow, Bool.and_eq_true, Bool.not_eq_eq_eq_not, Bool.not_true,
    ← Bool.not_eq_true, Bool.or_eq_true, beq_iff_eq, and_assoc, or_assoc]

theorem operatorFault?_clash (h : Clash t u) : operatorFault? (t :: u :: ts) =
    some ⟨[t.span, u.span], .doubledOperator t.slice.toString u.slice.toString⟩ := by
  rw [operatorFault?, if_pos (clash_iff.mp h)]

theorem operatorFault?_step (h : ¬ Clash t u) :
    operatorFault? (t :: u :: ts) = operatorFault? (u :: ts) := by
  rw [operatorFault?, if_neg (clash_iff.not.mp h)]

theorem operatorFault?_eq_none_iff : ∀ {ts : List Token},
    operatorFault? ts = none ↔ ts.IsChain fun t u => ¬ Clash t u
  | [] => iff_of_true rfl .nil
  | [t] => iff_of_true rfl (.singleton t)
  | t :: u :: ts => by
    rw [List.isChain_cons_cons]
    by_cases h : Clash t u
    · simp [operatorFault?_clash h, h]
    · rw [operatorFault?_step h, operatorFault?_eq_none_iff]
      simp [h]

/-- The check of operators passes over a row in which none clash. -/
theorem operatorFault?_chain : ∀ {before : List Token},
    (before ++ [t]).IsChain (fun t u => ¬ Clash t u) →
      operatorFault? (before ++ t :: ts) = operatorFault? (t :: ts)
  | [], _ => rfl
  | [u], h => by
    obtain ⟨hclash, -⟩ := List.isChain_cons_cons.mp h
    exact operatorFault?_step hclash
  | u :: v :: before, h => by
    obtain ⟨hclash, hrest⟩ := List.isChain_cons_cons.mp h
    have ih : operatorFault? (v :: before ++ t :: ts) = _ := operatorFault?_chain hrest
    exact (operatorFault?_step hclash).trans ih

theorem operatorFault?_eq_some {fault : Fault} : ∀ {ts : List Token},
    operatorFault? ts = some fault → ∃ before t u after, ts = before ++ t :: u :: after ∧
      (before ++ [t]).IsChain (fun t u => ¬ Clash t u) ∧ Clash t u ∧
        fault = ⟨[t.span, u.span], .doubledOperator t.slice.toString u.slice.toString⟩
  | [], h => by cases h
  | [t], h => by cases h
  | t :: u :: ts, h => by
    by_cases hclash : Clash t u
    · rw [operatorFault?_clash hclash] at h
      exact ⟨[], t, u, ts, rfl, .singleton t, hclash, (Option.some.inj h).symm⟩
    · rw [operatorFault?_step hclash] at h
      obtain ⟨before, v, w, after, hts, hchain, hvw, hfault⟩ := operatorFault?_eq_some h
      refine ⟨t :: before, v, w, after, by rw [hts, List.cons_append], ?_, hvw, hfault⟩
      refine List.isChain_cons.mpr ⟨fun x hx => ?_, hchain⟩
      obtain rfl : u = x := by
        cases before with
        | nil => simp_all
        | cons y before => simp_all
      exact hclash

/-- **A row passes the checks** if and only if it has no faults. -/
theorem fault?_eq_none_iff {length : Nat} : fault? length ts = none ↔ Faultless ts := by
  simp only [fault?, Option.orElse_eq_orElse, Option.orElse_eq_or, Option.or_eq_none_iff,
    emptyFault?_eq_none_iff, symbolFault?_eq_none_iff, ← balanced_iff, operatorFault?_eq_none_iff]
  constructor
  · rintro ⟨hne, hsymbol, hbalanced, hchain⟩
    exact ⟨hne, hsymbol, hbalanced, hchain⟩
  · intro h
    exact ⟨h.ne_nil, h.noSymbol, h.balanced, h.chain⟩

/-- **The checks report the first fault.** -/
theorem fault?_eq_some_iff {length : Nat} {fault : Fault} :
    fault? length ts = some fault ↔ FirstFault length ts fault := by
  simp only [fault?, Option.orElse_eq_orElse, Option.orElse_eq_or, Option.or_eq_some_iff,
    emptyFault?_eq_none_iff, symbolFault?_eq_none_iff, ← balanced_iff]
  constructor
  · rintro (h | ⟨-, h | ⟨hsymbol, h | ⟨hbalanced, h⟩⟩⟩)
    · obtain ⟨rfl, rfl⟩ := emptyFault?_eq_some_iff.mp h
      exact .empty
    · obtain ⟨before, t, after, rfl, hbefore, ht, rfl⟩ := symbolFault?_eq_some_iff.mp h
      exact .symbol before after hbefore ht
    · obtain ⟨t, ht, rfl⟩ | ⟨hcovered, t, ht, rfl⟩ := bracketFault?_eq_some_iff.mp h
      · exact .closing hsymbol ht
      · exact .opening hsymbol hcovered ht
    · obtain ⟨before, t, u, after, rfl, hchain, hclash, rfl⟩ := operatorFault?_eq_some h
      exact .operators before after hsymbol hbalanced hchain hclash
  · intro h
    cases h with
    | empty => exact .inl rfl
    | symbol before after hbefore ht =>
      exact .inr ⟨by simp, .inl (symbolFault?_eq_some_iff.mpr
        ⟨before, _, after, rfl, hbefore, ht, rfl⟩)⟩
    | closing hsymbol ht =>
      have hfault := bracketFault?_eq_some_iff.mpr (.inl ⟨_, ht, rfl⟩)
      obtain ⟨before, after, -, -⟩ := ht
      exact .inr ⟨by simp, .inr ⟨hsymbol, .inl hfault⟩⟩
    | opening hsymbol hcovered ht =>
      have hfault := bracketFault?_eq_some_iff.mpr (.inr ⟨hcovered, _, ht, rfl⟩)
      obtain ⟨before, after, -, -, -⟩ := ht
      exact .inr ⟨by simp, .inr ⟨hsymbol, .inl hfault⟩⟩
    | operators before after hsymbol hbalanced hchain hclash =>
      refine .inr ⟨by simp, .inr ⟨hsymbol, .inr ⟨hbalanced, ?_⟩⟩⟩
      rw [operatorFault?_chain hchain, operatorFault?_clash hclash]

/-! ### Parsing a whole text -/

section Full
variable (α : Type) [Scalar α] [Numeral α] {r : Reader}

theorem toEnd_spares (fuel : Nat) : Read.Spares (toEnd (α := α) fuel) := by
  refine (Read.sparing α fuel).sum.bind fun e => .get_bind fun r => ?_
  cases r.peek? with
  | none => exact .pure e
  | some kind =>
    refine fun r => ⟨.refl r, ?_⟩
    dsimp only [Fault.on]
    split_ifs <;> exact id

theorem full_eq_of_firstFault {fault : Fault} (h : FirstFault r.length r.tokens fault) :
    r.full (α := α) = (.error fault, r) := by
  rw [full, fault?_eq_some_iff.mpr h]

/-- **What is found after the checks** is no fault of the row. -/
theorem firstFault_of_full {fault : Fault} (h : (r.full (α := α)).1 = .error fault)
    (hcause : fault.cause.OfRow) : FirstFault r.length r.tokens fault := by
  rw [full] at h
  rcases hfault : fault? r.length r.tokens with _ | found
  · rw [hfault] at h
    have hends := toEnd_spares α r.fuel r
    dsimp only [perform] at h
    generalize toEnd (α := α) r.fuel r = o at h hends
    cases o with
    | done e r' => cases h
    | failed found r' =>
      obtain rfl := Except.error.inj h
      exact absurd hcause hends.2
    | spent =>
      obtain rfl := Except.error.inj h
      exact hcause.elim
  · rw [hfault] at h
    obtain rfl := Except.error.inj h
    exact fault?_eq_some_iff.mp hfault

end Full

/-- **Exactly the first fault of the row is reported.** The checks before reading pass if and only
if the row has no faults, and what they find otherwise is its first fault, which there is only one
of. A reader gives this fault without moving. It fails for the lack of tokens, for a bracket without
a partner or for two operators side by side in no other case, whatever the parser makes of the
tokens, and neither does the parsing of a text. -/
theorem first_fault_reported (α : Type) [Scalar α] [Numeral α] (length : Nat) (ts : List Token)
    (r : Reader) (text : List Char) :
    (fault? length ts = none ↔ Faultless ts) ∧
    (∀ fault, fault? length ts = some fault ↔ FirstFault length ts fault) ∧
    (∀ fault, FirstFault r.length r.tokens fault → r.full (α := α) = (.error fault, r)) ∧
    (∀ fault, fault.cause.OfRow →
      (r.full (α := α)).1 = .error fault → FirstFault r.length r.tokens fault) ∧
    ∀ fault, fault.cause.OfRow → (Expr.parseChars (α := α) text = .error fault ↔
      FirstFault (Text.bytes text) (ofChars text).ahead fault) := by
  refine ⟨fault?_eq_none_iff, fun _ => fault?_eq_some_iff,
    fun fault h => full_eq_of_firstFault α h, fun fault hcause h => firstFault_of_full α h hcause,
    fun fault hcause => ?_⟩
  have hfull : Expr.parseChars (α := α) text = .error fault ↔
      ((ofChars text).full (α := α)).1 = .error fault := by
    unfold Expr.parseChars
    rcases (ofChars text).full (α := α) with ⟨_ | _, _⟩ <;> simp
  rw [hfull]
  refine ⟨fun h => firstFault_of_full α h hcause, fun h => ?_⟩
  rw [full_eq_of_firstFault α (r := ofChars text) h]

end SymbolicAlgebra.Reader
