import SymbolicAlgebra.Proofs.Plain.ReadBack
import SymbolicAlgebra.Proofs.Plain.Spell

/-! # Plain text spells what it reads back as

Every piece of plain text spells an expression, and a relation between what is spelled and what was
rendered that goes from arguments to nodes (`Hereditary`) holds for whole expressions if it holds
for their numbers (`plain_spells_of`). By induction on the expression: brackets around every operand
make each text an atom, so nothing that a text is put into changes how it is read. Two such
relations are structural equality to what the rendered expression reads back as, which needs texts
of numbers that read back, and having the same variables, which needs nothing. -/

namespace SymbolicAlgebra.Plain

open SymbolicAlgebra.Expr (Occurs Same)

variable {α : Type} [Scalar α] [Numeral α]

/-! ### Pieces -/

theorem toList_inBrackets (s : String) : (Render.inBrackets s).toList = bracketed s.toList := by
  simp [Render.inBrackets, bracketed]

theorem toList_join (separator : String) : ∀ (s : String) (rest : List String),
    (Render.join separator (s :: rest)).toList =
      s.toList ++ rest.flatMap fun t => separator.toList ++ t.toList
  | s, [] => by simp [Render.join]
  | s, t :: rest => by
    rw [Render.join, String.toList_append, String.toList_append, toList_join separator t rest,
      List.flatMap_cons, List.append_assoc, List.append_assoc]

theorem toList_operation (operator s : String) (rest : List String) :
    (Render.operation operator (s :: rest)).toList =
      bracketed (bracketed s.toList ++
        rest.flatMap fun t => operator.toList ++ bracketed t.toList) := by
  rw [Render.operation, toList_inBrackets, List.map_cons, toList_join, toList_inBrackets,
    List.flatMap_map]
  simp only [toList_inBrackets]

theorem toList_application (name s : String) (rest : List String) :
    (Render.application name "," (s :: rest)).toList =
      name.toList ++ bracketed (s.toList ++ rest.flatMap fun t => ',' :: t.toList) := by
  rw [Render.application, String.toList_append, toList_inBrackets, toList_join]
  rfl

/-! ### Constants -/

section Constants

open Scalar (isNaN isFinite lt eq zero one negOne)
open LawfulNumeral (isNaN_of_isFinite)

variable [LawfulNumeral α]

/-- A product of two numbers in ascending order. -/
theorem productOf_pair {x y : α} (hx : isNaN x = false) (h : lt y x = false) :
    Expr.productOf [Expr.const x, .const y] = .product [.const x, .const y] := by
  have hle : (Expr.compare (.const x) (.const y)).isLE = true :=
    Scalar.isLE_order_iff.mpr (.inr ⟨hx, h⟩)
  have hfirst : (Expr.compare (.const x) (.const y) != .gt) = true := by
    revert hle
    cases Expr.compare (.const x) (.const y) <;> simp
  rw [Expr.productOf, Expr.ascending, StableSort.sort_eq_self]
  simpa using hfirst

theorem isNaN_zero : isNaN (zero : α) = false := isNaN_of_isFinite LawfulNumeral.isFinite_zero

/-- Minus a number that is not negative. -/
theorem neg_const {y : α} (hy : isNaN y = false) (h : lt y zero = false) :
    (Expr.const y).neg = .product [.const negOne, .const y] := by
  have hneg : isNaN (negOne : α) = false := isNaN_of_isFinite LawfulNumeral.isFinite_negOne
  refine productOf_pair hneg ?_
  by_contra hlt
  rcases OrderedScalar.lt_cotrans hy isNaN_zero hneg (Bool.not_eq_false _ ▸ hlt) with h' | h'
  · rw [h] at h'
    cases h'
  · rw [OrderedScalar.lt_asymm hneg isNaN_zero LawfulNumeral.negOne_lt_zero] at h'
    cases h'

theorem not_neg_of_eq {x y : α} (h : eq y x = true) (hy : lt y zero = false) :
    lt x zero = false := by
  by_contra hlt
  rw [Scalar.lt_of_eq_of_lt (Scalar.eq_symm h) isNaN_zero (Bool.not_eq_false _ ▸ hlt)] at hy
  cases hy

theorem not_neg_of_pos {x : α} (hx : isNaN x = false) (h : lt zero x = true) :
    lt x zero = false :=
  OrderedScalar.lt_asymm isNaN_zero hx h

theorem constantBack_nonneg {x : α} (hfinite : isFinite x = true) (h : lt x zero = false) :
    Expr.constantBack x = .const x := by
  rw [Expr.constantBack, isNaN_of_isFinite hfinite, hfinite, h]
  rfl

theorem spells_zero : ∃ z : α, Spells .atom ['0'] (Expr.const z) ∧ eq z zero = true := by
  obtain ⟨z, hread, heq⟩ := LawfulNumeral.read_zero (α := α)
  exact ⟨z, .number (.digit rfl) hread, heq⟩

theorem spells_one : ∃ o : α, Spells .atom ['1'] (Expr.const o) ∧
    Spells .sum ['-', '1'] (Expr.const o).neg ∧ eq o one = true := by
  obtain ⟨o, hread, heq⟩ := LawfulNumeral.read_one (α := α)
  exact ⟨o, .number (.digit rfl) hread, .negated (.digit rfl) hread, heq⟩

/-- The text of a number that is neither zero nor a named one. Its digits may be read as another
number. -/
theorem spells_text {x : α} (hfinite : isFinite x = true) (hzero : eq x zero = false) :
    ∃ t : Expr α, Spells .sum (Numeral.text x).toList t ∧ t.VarsIn (fun _ => False) ∧
      (Numeral.read (Numeral.text (Scalar.abs x)).toList = some (Scalar.abs x) →
        Same t (Expr.constantBack x)) := by
  have hnan : isNaN x = false := isNaN_of_isFinite hfinite
  have hdecimal := LawfulNumeral.isDecimal_text hfinite hzero
  obtain ⟨y, hread⟩ := LawfulNumeral.read_decimal (α := α) hdecimal
  rcases hneg : lt x zero
  · have hpos : lt zero x = true := by
      by_contra hpos
      have heq := (OrderedScalar.eq_iff hnan isNaN_zero).mpr ⟨hneg, by simpa using hpos⟩
      rw [hzero] at heq
      cases heq
    refine ⟨.const y, ?_, .const y, fun hback => ?_⟩
    · rw [LawfulNumeral.text_of_pos hfinite hpos]
      exact (Spells.number hdecimal hread).atom_sum
    · obtain rfl := Option.some.inj (hread.symm.trans hback)
      rw [constantBack_nonneg hfinite hneg]
      exact .const (LawfulNumeral.abs_of_pos hfinite hpos)
  · refine ⟨(Expr.const y).neg, ?_, .neg (.const y), fun hback => ?_⟩
    · rw [LawfulNumeral.text_of_neg hfinite hneg, String.toList_append]
      exact .negated hdecimal hread
    · obtain rfl := Option.some.inj (hread.symm.trans hback)
      have habs := isNaN_of_isFinite (LawfulNumeral.isFinite_abs hfinite)
      rw [neg_const habs (LawfulNumeral.abs_nonneg hfinite), Expr.constantBack, hnan, hfinite, hneg]
      exact .refl _

/-- The text of a finite number. -/
theorem spells_finite {x : α} (hfinite : isFinite x = true) :
    ∃ t : Expr α, Spells .sum (Render.constant Constant.name x).toList t ∧
      t.VarsIn (fun _ => False) ∧
      (Numeral.read (Numeral.text (Scalar.abs x)).toList = some (Scalar.abs x) →
        Same t (Expr.constantBack x)) := by
  rw [Render.constant]
  split
  · next c hname =>
    have heq : eq c.value x = true := by
      simpa using List.find?_some hname
    have hvalue : isNaN (c.value : α) = false :=
      isNaN_of_isFinite (LawfulNumeral.isFinite_constant c)
    have hnonneg := not_neg_of_pos hvalue (LawfulNumeral.zero_lt_constant c)
    refine ⟨.const c.value, (Spells.constant c).atom_sum, .const _, fun _ => ?_⟩
    rw [constantBack_nonneg hfinite (not_neg_of_eq heq hnonneg)]
    exact .const heq
  · rw [Render.number]
    split
    · next heq =>
      obtain ⟨z, hspells, hz⟩ := spells_zero (α := α)
      have hnonneg := not_neg_of_eq (Scalar.eq_symm heq) (Scalar.lt_irrefl isNaN_zero)
      refine ⟨.const z, hspells.atom_sum, .const z, fun _ => ?_⟩
      rw [constantBack_nonneg hfinite hnonneg]
      exact .const (Scalar.eq_trans hz (Scalar.eq_symm heq))
    · next hzero => exact spells_text hfinite (by simpa using hzero)

/-- **The text of a number spells what it reads back as**, if its digits do, and an expression
without variables in any case. -/
theorem spells_constant (x : α) :
    ∃ t : Expr α, Spells .sum (Render.plainConstant x).toList t ∧ t.VarsIn (fun _ => False) ∧
      ((isFinite x = true →
          Numeral.read (Numeral.text (Scalar.abs x)).toList = some (Scalar.abs x)) →
        Same t (Expr.constantBack x)) := by
  obtain ⟨z, hzero, hz⟩ := spells_zero (α := α)
  obtain ⟨o, hone, hnegOne, ho⟩ := spells_one (α := α)
  rw [Render.plainConstant, Expr.constantBack]
  split
  · have hargs := Spells.args hone.atom_sum (.cons hzero.atom_sum .nil)
    refine ⟨.mod (.const o) (.const z), (Spells.call (f := .mod) hargs rfl).atom_sum,
      Expr.VarsIn.binary_iff.mpr ⟨.const o, .const z⟩, fun _ => ?_⟩
    exact .binary _ (.const ho) (.const hz)
  · split
    · next hnan hfinite =>
      obtain ⟨t, hspells, hvars, hback⟩ := spells_finite hfinite
      rw [Expr.constantBack, if_neg hnan, if_pos hfinite] at hback
      exact ⟨t, hspells, hvars, fun hread => hback (hread hfinite)⟩
    · split
      · have hnonneg := not_neg_of_pos (isNaN_of_isFinite LawfulNumeral.isFinite_one)
          (LawfulNumeral.zero_lt_one (α := α))
        have hneg := neg_const (OrderedScalar.isNaN_of_eq ho).1
          (not_neg_of_eq (Scalar.eq_symm ho) hnonneg)
        refine ⟨.fraction (Expr.const o).neg (.const z),
          (Spells.fraction hnegOne hzero.atom_sum).group.atom_sum,
          Expr.VarsIn.binary_iff.mpr ⟨.neg (.const o), .const z⟩, fun _ => ?_⟩
        rw [hneg]
        exact .binary _ (.nary _ (.cons (.refl _) (.cons (.const ho) .nil))) (.const hz)
      · refine ⟨.fraction (.const o) (.const z),
          (Spells.fraction hone.atom_sum hzero.atom_sum).group.atom_sum,
          Expr.VarsIn.binary_iff.mpr ⟨.const o, .const z⟩, fun _ => ?_⟩
        exact .binary _ (.const ho) (.const hz)

theorem constantBack_euler {x : α} (h : eq x Scalar.euler = true) :
    Expr.constantBack x = .const x := by
  have hvalue : isNaN (Scalar.euler : α) = false :=
    isNaN_of_isFinite (LawfulNumeral.isFinite_constant .euler)
  refine constantBack_nonneg ?_ (not_neg_of_eq (Scalar.eq_symm h) ?_)
  · rw [LawfulNumeral.isFinite_congr h]
    exact LawfulNumeral.isFinite_constant .euler
  · exact not_neg_of_pos hvalue (LawfulNumeral.zero_lt_constant .euler)

end Constants

/-! ### Calls and operations -/

/-- The name by which plain text calls a function of one argument. -/
def callable : Unary → Callable
  | .bracket kind => .bracket kind
  | .trig kind => .trig kind
  | .sign => .sign

theorem plain_unary (f : Unary) (a : Expr α) :
    Render.plain (.unary f a) = Render.application (callable f).name "," [Render.plain a] := by
  cases f <;> rfl

omit [Numeral α] in
theorem applied?_callable (f : Unary) (a : Expr α) :
    (callable f).applied? [a] = some (.unary f a) := by
  cases f <;> rfl

/-- The plain text of a function of several arguments, given theirs. -/
def naryText : Nary → List String → String
  | .sum, texts => Render.operation "+" texts
  | .product, texts => Render.operation "*" texts
  | .min, texts => Render.application "min" "," texts
  | .max, texts => Render.application "max" "," texts

theorem plain_nary (f : Nary) (as : List (Expr α)) :
    Render.plain (.nary f as) = naryText f (Render.plainList as) := by
  cases f <;> rfl

/-- A call with its arguments. -/
theorem spells_call (f : Callable) {s : String} {texts : List String} {a e : Expr α}
    {as : List (Expr α)} (h : Spells .sum s.toList a)
    (hs : List.Forall₂ (Spells .sum) (texts.map String.toList) as)
    (he : f.applied? (a :: as) = some e) :
    Spells .sum (Render.application f.name "," (s :: texts)).toList e := by
  have hargs := Spells.args h hs
  rw [List.flatMap_map] at hargs
  rw [toList_application]
  exact (Spells.call hargs he).atom_sum

/-- At least two arguments with a function around them. -/
theorem spells_nary (f : Nary) {s t : String} {texts : List String} {a b : Expr α}
    {as : List (Expr α)} (h : Spells .sum s.toList a)
    (hs : List.Forall₂ (Spells .sum) ((t :: texts).map String.toList) (b :: as)) :
    Spells .sum (naryText f (s :: t :: texts)).toList
      (.nary f (Expr.arrange f (a :: b :: as))) := by
  cases f with
  | sum =>
    have hsum := Spells.added h hs
    rw [List.flatMap_map] at hsum
    rw [naryText, toList_operation]
    exact hsum.group.atom_sum
  | product =>
    have hproduct := Spells.multiplied h hs
    rw [List.flatMap_map] at hproduct
    rw [naryText, toList_operation]
    exact hproduct.group.atom_sum
  | min => exact spells_call .min h hs rfl
  | max => exact spells_call .max h hs rfl

/-! ### Expressions -/

/-- A relation between what is spelled and what was rendered that goes from arguments to nodes.
Natural logarithms are spelled without their base. -/
structure Hereditary (R : Expr α → Expr α → Prop) : Prop where
  var (c : Char) : R (.var c) (.var c)
  unary (f : Unary) {s a : Expr α} : R s a → R (.unary f s) (.unary f a)
  binary (f : Binary) {s t a b : Expr α} : R s a → R t b → R (.binary f s t) (.binary f a b)
  nary (f : Nary) {ts as : List (Expr α)} : List.Forall₂ R ts as →
    R (.nary f (Expr.arrange f ts)) (.nary f as)
  euler {x : α} : Scalar.eq x Scalar.euler = true → R (.const Scalar.euler) (.const x)

section Hereditary
variable {R : Expr α → Expr α → Prop}

/-- A logarithm. The natural one has a name of its own. -/
theorem spells_log (hR : Hereditary R) {a b s t : Expr α}
    (hs : Spells .sum (Render.plain a).toList s)
    (hsa : R s a) (ht : Spells .sum (Render.plain b).toList t) (htb : R t b) :
    ∃ u, Spells .sum (Render.plain (.log a b)).toList u ∧ R u (.log a b) := by
  rw [Render.plain]
  split
  · next heuler =>
    obtain ⟨x, rfl⟩ : ∃ x, a = .const x := by
      cases a <;> simp_all [Expr.isEuler, Expr.isConstant, Expr.constant?]
    exact ⟨.ln t, spells_call .ln ht .nil rfl, hR.binary _ (hR.euler heuler) htb⟩
  · refine ⟨.log s t, ?_, hR.binary _ hsa htb⟩
    have hlog := (Spells.log hs ht).atom_sum
    simpa [toList_inBrackets] using hlog

mutual

/-- **The plain text of an expression spells one that is related to it**, if the texts of its
numbers do. -/
theorem plain_spells_of (hR : Hereditary R) : ∀ {e : Expr α}, e.Typeable →
    (∀ x, Occurs (.const x) e →
      ∃ t, Spells .sum (Render.plainConstant x).toList t ∧ R t (.const x)) →
    ∃ t, Spells .sum (Render.plain e).toList t ∧ R t e
  | .const x, _, hconst => hconst x (.self _)
  | .var c, htypeable, _ => by
    obtain ⟨hletter, hne⟩ := htypeable.isLetter (.self _)
    refine ⟨.var c, ?_, hR.var c⟩
    rw [Render.plain, Char.toString_eq_singleton, String.toList_singleton]
    exact (Spells.letter hletter hne).atom_sum
  | .unary f a, htypeable, hconst => by
    have ha := List.mem_singleton_self a
    obtain ⟨t, hspells, hta⟩ :=
      plain_spells_of hR (htypeable.of_mem ha) fun x hx => hconst x (.inside ha hx)
    refine ⟨.unary f t, ?_, hR.unary f hta⟩
    rw [plain_unary]
    exact spells_call _ hspells .nil (applied?_callable f t)
  | .binary f a b, htypeable, hconst => by
    have ha : a ∈ (Expr.binary f a b).children := List.mem_cons_self
    have hb : b ∈ (Expr.binary f a b).children := List.mem_cons_of_mem _ List.mem_cons_self
    obtain ⟨s, hs, hsa⟩ :=
      plain_spells_of hR (htypeable.of_mem ha) fun x hx => hconst x (.inside ha hx)
    obtain ⟨t, ht, htb⟩ :=
      plain_spells_of hR (htypeable.of_mem hb) fun x hx => hconst x (.inside hb hx)
    cases f with
    | fraction =>
      refine ⟨.fraction s t, ?_, hR.binary _ hsa htb⟩
      have hfraction := (Spells.fraction hs ht).group.atom_sum
      rw [Render.plain, toList_operation]
      simpa using hfraction
    | power =>
      refine ⟨.power s t, ?_, hR.binary _ hsa htb⟩
      have hpower := Spells.raised hs ht
      rw [Render.plain]
      simpa [toList_inBrackets] using hpower
    | log => exact spells_log hR hs hsa ht htb
    | mod =>
      refine ⟨.mod s t, ?_, hR.binary _ hsa htb⟩
      exact spells_call .mod hs (.cons ht .nil) rfl
  | .nary f as, htypeable, hconst => by
    obtain ⟨ts, hspells, hrel⟩ := plainList_spells_of hR (fun a ha => htypeable.of_mem ha)
      fun a ha x hx => hconst x (.inside ha hx)
    refine ⟨.nary f (Expr.arrange f ts), ?_, hR.nary f hrel⟩
    have hlength := htypeable.two_le_length (.self _)
    rw [plain_nary]
    match as, hlength with
    | a :: b :: rest, _ =>
      obtain ⟨s, us, hs, hus, rfl⟩ := List.forall₂_cons_left_iff.mp hspells
      obtain ⟨t, us', ht, hus', rfl⟩ := List.forall₂_cons_left_iff.mp hus
      exact spells_nary f hs (.cons ht hus')

theorem plainList_spells_of (hR : Hereditary R) : ∀ {es : List (Expr α)}, (∀ e ∈ es, e.Typeable) →
    (∀ e ∈ es, ∀ x, Occurs (.const x) e →
      ∃ t, Spells .sum (Render.plainConstant x).toList t ∧ R t (.const x)) →
    ∃ ts, List.Forall₂ (Spells .sum) ((Render.plainList es).map String.toList) ts ∧
      List.Forall₂ R ts es
  | [], _, _ => ⟨[], .nil, .nil⟩
  | e :: es, htypeable, hconst => by
    obtain ⟨ht, hts⟩ := List.forall_mem_cons.mp htypeable
    obtain ⟨hc, hcs⟩ := List.forall_mem_cons.mp hconst
    obtain ⟨t, hspells, hrel⟩ := plain_spells_of hR ht hc
    obtain ⟨ts, hspells', hrels⟩ := plainList_spells_of hR hts hcs
    exact ⟨t :: ts, .cons hspells hspells', .cons hrel hrels⟩

end

end Hereditary

variable [LawfulNumeral α]

omit [Numeral α] [LawfulNumeral α] in
theorem readBackList_eq_map (es : List (Expr α)) :
    Expr.readBackList es = es.map Expr.readBack := by
  induction es with
  | nil => rfl
  | cons e es ih => rw [Expr.readBackList, ih, List.map_cons]

theorem hereditary_readBack : Hereditary fun t e : Expr α => Same t e.readBack where
  var c := .var c
  unary f _ _ h := .unary f h
  binary f _ _ _ _ h h' := .binary f h h'
  nary f ts as h := by
    rw [Expr.readBack, readBackList_eq_map]
    exact .nary f (Expr.arrange_congr f (List.forall₂_map_right_iff.mpr h))
  euler h := by
    rw [Expr.readBack, constantBack_euler h]
    exact .const (Scalar.eq_symm h)

omit [Numeral α] [LawfulNumeral α] in
theorem hereditary_vars :
    Hereditary fun t e : Expr α => ∀ c, Occurs (.var c) t ↔ Occurs (.var c) e where
  var c d := Iff.rfl
  unary f _ _ h c := by simp [h c]
  binary f _ _ _ _ h h' c := by simp [h c, h' c]
  nary f ts as h c := by
    simp only [Occurs.nary_iff, reduceCtorEq, false_or, (Expr.arrange_perm f ts).mem_iff]
    induction h with
    | nil => simp
    | cons h _ ih => simp [h c, ih]
  euler _ c := by simp

/-- **The plain text of an expression spells what it reads back as.** -/
theorem plain_spells {e : Expr α} (htypeable : e.Typeable) (hlegible : e.Legible) :
    ∃ t, Spells .sum (Render.plain e).toList t ∧ Same t e.readBack := by
  refine plain_spells_of hereditary_readBack htypeable fun x hx => ?_
  obtain ⟨t, hspells, -, hback⟩ := spells_constant x
  exact ⟨t, hspells, hback (hlegible x hx)⟩

/-- **The plain text of an expression spells one with its variables**, even if numbers are not read
back. -/
theorem plain_spells_vars {e : Expr α} (htypeable : e.Typeable) :
    ∃ t : Expr α, Spells .sum (Render.plain e).toList t ∧
      ∀ c, Occurs (.var c) t ↔ Occurs (.var c) e := by
  refine plain_spells_of hereditary_vars htypeable fun x _ => ?_
  obtain ⟨t, hspells, hvars, -⟩ := spells_constant x
  refine ⟨t, hspells, fun c => ?_⟩
  simpa using hvars c

end SymbolicAlgebra.Plain
