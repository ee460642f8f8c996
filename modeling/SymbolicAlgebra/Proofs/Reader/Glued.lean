import SymbolicAlgebra.Proofs.Reader.Progress

/-! # Glued names

A name is functions glued in front of a tail: a constant, a single letter or a function. What can be
a tail is stated without the search for it (`TailSpells`), and then a name has one reading at most,
because no name of a function starts with another one, and no tail does with more behind it. The
parser finds this reading and no other, although it never goes back: what the tail comes to is
wrapped in the functions, from the inside out (`Wraps`). A name without a reading is refused at what
is left after the longest chain of functions, and nothing of it is remembered
(`glued_names_taken_apart`). -/

namespace SymbolicAlgebra.Read

open Grammar NameParts

/-! ### Readings of a name -/

/-- The names of functions one after the other. -/
def spelled (fs : List Callable) : List Char := fs.flatMap fun f => f.name.toList

/-- **What can stand at the end of a name**, and as what: a constant, though its name may be one
letter, any other single letter, or a function. -/
inductive TailSpells : NameTail → List Char → Prop where
  | constant (c : Constant) : TailSpells (.constant c) c.name.toList
  | «variable» {c : Char} : (∀ k : Constant, k.name.toList ≠ [c]) → TailSpells (.variable c) [c]
  | function (f : Callable) : TailSpells (.function f) f.name.toList

theorem spelled_cons (f : Callable) (fs : List Callable) :
    spelled (f :: fs) = f.name.toList ++ spelled fs := List.flatMap_cons

theorem bytes_spelled_cons (f : Callable) (fs : List Callable) :
    Text.bytes (spelled (f :: fs)) = f.name.length + Text.bytes (spelled fs) := by
  rw [spelled_cons, Text.bytes_append, Callable.bytes_name]

variable {n last last' : List Char} {tail tail' : NameTail} {fs gs : List Callable}

theorem TailSpells.ne_nil (h : TailSpells tail last) : last ≠ [] := by
  cases h with
  | constant c => cases c <;> decide
  | «variable» _ => exact List.cons_ne_nil _ _
  | function f => exact List.ne_nil_of_length_pos (name_pos f)

/-- **A name that is one thing as a whole** is a tail. -/
theorem whole?_eq_some_iff : whole? n = some tail ↔ TailSpells tail n := by
  constructor
  · intro h
    unfold whole? at h
    rcases hc : Constant.ofName? n with _ | c
    · simp only [hc] at h
      split at h
      · next c =>
        rw [← Option.some.inj h]
        refine .variable fun k hk => ?_
        simpa [hk] using List.find?_eq_none.mp hc k (by cases k <;> decide)
      · obtain ⟨f, hf, rfl⟩ := Option.map_eq_some_iff.mp h
        obtain rfl : f.name.toList = n := by
          simpa using List.find?_some (p := fun f : Callable => f.name.toList == n) hf
        exact .function f
    · simp only [hc] at h
      rw [← Option.some.inj h]
      obtain rfl : c.name.toList = n := by
        simpa using List.find?_some (p := fun c : Constant => c.name.toList == n) hc
      exact .constant c
  · intro h
    cases h with
    | constant c => cases c <;> rfl
    | @«variable» c hc =>
      have hnone : Constant.ofName? [c] = none := List.find?_eq_none.mpr fun k _ => by simp [hc k]
      simp only [whole?, hnone]
    | function f => exact whole?_name f

/-- **The parser takes a name apart into a reading**, if that is one. By induction on the functions
in front: none of them is a whole name with more behind it, or starts like another one. -/
theorem ofName_spelled (h : TailSpells tail last) : ∀ fs : List Callable,
    ofName (spelled fs ++ last) = ⟨fs, tail, last⟩
  | [] => ofName_whole (whole?_eq_some_iff.mpr h)
  | f :: fs => by
    have hne : spelled fs ++ last ≠ [] := List.append_ne_nil_of_right_ne_nil _ h.ne_nil
    obtain ⟨c, n, hn⟩ := List.exists_cons_of_ne_nil hne
    rw [spelled_cons, List.append_assoc, hn, ofName_glued, ← hn, ofName_spelled h fs]

/-- **A name has one reading at most.** -/
theorem reading_unique (h : TailSpells tail last) (h' : TailSpells tail' last')
    (heq : spelled fs ++ last = spelled gs ++ last') : fs = gs ∧ tail = tail' ∧ last = last' := by
  have hparts := congrArg ofName heq
  rw [ofName_spelled h, ofName_spelled h'] at hparts
  exact ⟨congrArg NameParts.front hparts, congrArg NameParts.tail hparts,
    congrArg NameParts.text hparts⟩

/-- What is left of a name is a tail, or neither a tail nor behind another function. -/
theorem split_cases : ∀ (fuel : Nat) (n : List Char), n.length ≤ fuel →
    TailSpells (split fuel n).tail (split fuel n).text ∨
      (split fuel n).tail = .unknown ∧ Callable.ofPrefix? (split fuel n).text = none
  | fuel, n, hn => by
    rcases hwhole : whole? n with _ | tail
    · rcases hprefix : Callable.ofPrefix? n with _ | f
      · rw [split_unknown hwhole hprefix]
        exact .inr ⟨rfl, hprefix⟩
      · have hlt := length_drop_lt hprefix
        cases fuel with
        | zero => exact absurd (hlt.trans_le hn) (Nat.not_lt_zero _)
        | succ fuel =>
          rw [split_front hwhole hprefix]
          exact split_cases fuel _ (Nat.lt_succ_iff.mp (hlt.trans_le hn))
    · rw [split_whole hwhole]
      exact .inl (whole?_eq_some_iff.mp hwhole)

theorem eq_spelled (n : List Char) : n = spelled (ofName n).front ++ (ofName n).text :=
  text_split n.length n

/-- **The longest chain of functions** in front of a name: any other one is a beginning of it. -/
theorem chain_prefix {rest : List Char} (hrest : Callable.ofPrefix? rest = none) :
    ∀ {fs gs : List Callable} {other : List Char},
      spelled fs ++ rest = spelled gs ++ other → gs <+: fs
  | _, [], _, _ => List.nil_prefix
  | [], g :: gs, other, heq => by
    rw [spelled_cons, List.append_assoc] at heq
    obtain rfl : rest = _ := heq
    rw [ofPrefix?_glued] at hrest
    cases hrest
  | f :: fs, g :: gs, other, heq => by
    rw [spelled_cons, spelled_cons, List.append_assoc, List.append_assoc] at heq
    have hfirst := congrArg Callable.ofPrefix? heq
    rw [ofPrefix?_glued, ofPrefix?_glued] at hfirst
    obtain rfl := Option.some.inj hfirst
    exact List.cons_prefix_cons.mpr ⟨rfl, chain_prefix hrest (List.append_cancel_left heq)⟩

/-! ### What a name comes to -/

section Outcomes
variable {α : Type} [Scalar α]

/-- **What the functions in front make of the outcome of the tail**, when the name starts at the
given place: they are applied to a value from the inside out. The innermost remainder refuses its
one argument, at its own name, and a fault of the tail stays. -/
inductive Wraps (start : Nat) (fs : List Callable) :
    Outcome (Expr α) → Outcome (Expr α) → Prop where
  | done {a e : Expr α} {r : Reader} : applyAll fs a = some e →
    Wraps start fs (.done a r) (.done e r)
  | refused {a : Expr α} {r : Reader} (outer inner : List Callable) : fs = outer ++ .mod :: inner →
    .mod ∉ inner → Wraps start fs (.done a r) (.failed (.on ⟨start + Text.bytes (spelled outer),
      start + Text.bytes (spelled (outer ++ [.mod]))⟩ (.wrongArgumentCount .mod 1)) r)
  | failed (fault : Fault) (r : Reader) : Wraps start fs (.failed fault r) (.failed fault r)
  | spent : Wraps start fs .spent .spent

theorem applied?_one_eq_none_iff {f : Callable} {a : Expr α} :
    f.applied? [a] = none ↔ f = .mod := by
  rw [← Option.not_isSome_iff_eq_none, Callable.isSome_applied?]
  cases f <;> simp [Callable.arity, Arity.accepts]

/-- **All functions but the remainder** accept one argument. -/
theorem applyAll_eq_none_iff {a : Expr α} : ∀ {fs : List Callable},
    applyAll fs a = none ↔ .mod ∈ fs
  | [] => by simp [applyAll]
  | f :: fs => by
    rw [applyAll, List.mem_cons, ← applyAll_eq_none_iff (a := a)]
    rcases applyAll fs a with _ | b
    · simp
    · rw [Option.bind_some, applied?_one_eq_none_iff, eq_comm]
      simp

theorem applyFront_wraps (a : Expr α) (r : Reader) : ∀ (fs : List Callable) (start : Nat),
    Wraps start fs (.done a r) (applyFront a start fs r)
  | [], start => .done rfl
  | f :: fs, start => by
    have ih := applyFront_wraps a r fs (start + f.name.length)
    show Wraps start (f :: fs) (.done a r) (Read.bind (applyFront a _ fs) _ r)
    unfold Read.bind
    generalize applyFront a (start + f.name.length) fs r = o at ih ⊢
    cases ih with
    | @done _ b _ hb =>
      have hfront : applyAll (f :: fs) a = f.applied? [b] := by
        rw [applyAll, hb, Option.bind_some]
      show Wraps start (f :: fs) (.done a r) (call f [b] ⟨start, start + f.name.length⟩ r)
      unfold call
      rcases he : f.applied? [b] with _ | e
      · obtain rfl := applied?_one_eq_none_iff.mp he
        have hmod : .mod ∉ fs := by
          rw [← applyAll_eq_none_iff (a := a), hb]
          exact Option.some_ne_none b
        exact .refused [] fs rfl hmod
      · exact .done (hfront.trans he)
    | refused outer inner hfs hmod =>
      have hfs' : f :: fs = (f :: outer) ++ .mod :: inner := by rw [hfs, List.cons_append]
      have hrefused : Wraps start (f :: fs) (.done a r) _ := .refused (f :: outer) inner hfs' hmod
      rwa [List.cons_append, bytes_spelled_cons, bytes_spelled_cons, ← Nat.add_assoc,
        ← Nat.add_assoc] at hrefused

theorem bind_applyFront_wraps (tail : Read (Expr α)) (fs : List Callable) (start : Nat)
    (r : Reader) : Wraps start fs (tail r) ((tail >>= fun a => applyFront a start fs) r) := by
  show Wraps start fs (tail r) (Read.bind tail _ r)
  unfold Read.bind
  cases tail r with
  | done a r' => exact applyFront_wraps a r' fs start
  | failed fault r' => exact .failed fault r'
  | spent => exact .spent

variable [Numeral α]

/-- **What a tail comes to** at its span: a constant is its number, a variable is registered, and a
function is applied to what follows. -/
inductive TailReads (fuel : Nat) (span : Span) (r : Reader) :
    NameTail → Outcome (Expr α) → Prop where
  | constant (c : Constant) : TailReads fuel span r (.constant c) (.done (.const c.value) r)
  | «variable» (c : Char) : TailReads fuel span r (.variable c)
    (.done (.var c) { r with vars := r.vars.insert c })
  | function (f : Callable) : TailReads fuel span r (.function f) (application fuel f span r)

/-- **A name with a reading** comes to what its tail comes to, wrapped in the functions in front. -/
theorem name_reads (fuel : Nat) {t : Token} (r : Reader) (h : TailSpells tail last)
    (hname : t.lexeme = spelled fs ++ last) :
    ∃ o : Outcome (Expr α),
      TailReads fuel ⟨t.span.start + Text.bytes (spelled fs), t.span.stop⟩ r tail o ∧
        Wraps t.span.start fs o (name (fuel + 1) t r) := by
  have hspan : t.span.stop - Text.bytes last = t.span.start + Text.bytes (spelled fs) := by
    have hstop : t.span.stop = t.span.start + Text.bytes t.lexeme := rfl
    rw [hname, Text.bytes_append] at hstop
    omega
  rw [name, hname, ofName_spelled h]
  dsimp only
  rw [hspan]
  cases h with
  | constant c => exact ⟨_, .constant c, applyFront_wraps _ r fs _⟩
  | @«variable» c _ => exact ⟨_, .variable c, applyFront_wraps _ _ fs _⟩
  | function f => exact ⟨_, .function f, bind_applyFront_wraps _ fs _ r⟩

/-- **A name without a reading** is refused, and the reader stays as it is. -/
theorem name_refuses (fuel : Nat) {t : Token} (r : Reader)
    (h : ∀ fs tail last, TailSpells tail last → t.lexeme ≠ spelled fs ++ last) :
    ∃ fs rest, t.lexeme = spelled fs ++ rest ∧
      (∀ gs other, t.lexeme = spelled gs ++ other → gs <+: fs) ∧
      name (α := α) (fuel + 1) t r = .failed (.on
        ⟨t.span.start + Text.bytes (spelled fs), t.span.stop⟩
        (.unknownName (String.ofList rest) (suggestions rest))) r := by
  have hname := eq_spelled t.lexeme
  obtain htail | ⟨htail, hprefix⟩ := split_cases t.lexeme.length t.lexeme (Nat.le_refl _)
  · exact absurd hname (h _ _ _ htail)
  change (ofName t.lexeme).tail = .unknown at htail
  refine ⟨_, _, hname, fun gs other hother => chain_prefix hprefix (hname ▸ hother), ?_⟩
  have hspan : t.span.stop - Text.bytes (ofName t.lexeme).text =
      t.span.start + Text.bytes (spelled (ofName t.lexeme).front) := by
    have hstop : t.span.stop = t.span.start + Text.bytes t.lexeme := rfl
    rw [hname, Text.bytes_append] at hstop
    omega
  rw [name, htail, hspan]
  rfl

end Outcomes

/-- **Glued names are taken apart in the only possible way.** A name is functions and then a tail in
one way at most. If it is so in one way, the parser finds it: the tail is a constant, registers a
variable or is a function applied to what follows, at its span, and the functions in front are
applied around it from the inside out. If not, the fault is what is left of the name after the
longest chain of functions in front, at its span, and the reader has registered nothing. With fuel
for the tokens ahead the parser does not run out of it. -/
theorem glued_names_taken_apart (α : Type) [Scalar α] [Numeral α] (fuel : Nat) (t : Token)
    (r : Reader) :
    (∀ fs gs tail tail' last last', TailSpells tail last → TailSpells tail' last' →
      spelled fs ++ last = spelled gs ++ last' → fs = gs ∧ tail = tail' ∧ last = last') ∧
    (∀ fs tail last, TailSpells tail last → t.lexeme = spelled fs ++ last →
      ∃ o : Outcome (Expr α),
        TailReads fuel ⟨t.span.start + Text.bytes (spelled fs), t.span.stop⟩ r tail o ∧
          Wraps t.span.start fs o (name (fuel + 1) t r)) ∧
    ((∀ fs tail last, TailSpells tail last → t.lexeme ≠ spelled fs ++ last) →
      ∃ fs rest, t.lexeme = spelled fs ++ rest ∧
        (∀ gs other, t.lexeme = spelled gs ++ other → gs <+: fs) ∧
        name (α := α) (fuel + 1) t r = .failed (.on
          ⟨t.span.start + Text.bytes (spelled fs), t.span.stop⟩
          (.unknownName (String.ofList rest) (suggestions rest))) r) ∧
    (10 * r.ahead.length + 2 ≤ fuel → name (α := α) (fuel + 1) t r ≠ .spent) := by
  refine ⟨fun fs gs tail tail' last last' h h' => reading_unique h h',
    fun fs tail last h hname => name_reads fuel r h hname, name_refuses fuel r, fun hfuel => ?_⟩
  have htakes := (progressing α (fuel + 1)).name (t := t) (r := r) (by omega)
  intro hspent
  rw [Takes, hspent] at htakes
  exact htakes

end SymbolicAlgebra.Read
