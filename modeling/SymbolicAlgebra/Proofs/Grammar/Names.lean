import SymbolicAlgebra.Proofs.Grammar.Derivation
import SymbolicAlgebra.Proofs.Grammar.Steps

/-! # Names in the grammar

A name is taken apart in one way only, because no function name starts with another one or with the
name of a constant. So the parts that stripping function names from the front gives (`ofName`) are
the parts in every derivation: the functions in front apply to what the tail stands for. -/

namespace SymbolicAlgebra.Grammar

open NameParts (split whole? ofName)

/-! ### Names of functions -/

theorem name_pos (f : Callable) : 0 < f.name.toList.length := by
  cases f with
  | trig kind => cases kind <;> decide
  | bracket kind => cases kind <;> decide
  | _ => decide

theorem whole?_name (f : Callable) : whole? f.name.toList = some (.function f) := by
  cases f with
  | trig kind => cases kind <;> rfl
  | bracket kind => cases kind <;> rfl
  | _ => rfl

theorem whole?_glued (f : Callable) (c : Char) (n : List Char) :
    whole? (f.name.toList ++ c :: n) = none := by
  cases f with
  | trig kind => cases kind <;> rfl
  | bracket kind => cases kind <;> rfl
  | _ => rfl

theorem ofPrefix?_glued (f : Callable) (n : List Char) :
    Callable.ofPrefix? (f.name.toList ++ n) = some f := by
  cases f with
  | trig kind => cases kind <;> rfl
  | bracket kind => cases kind <;> rfl
  | _ => rfl

theorem eq_append_of_ofPrefix? {n : List Char} {f : Callable}
    (h : Callable.ofPrefix? n = some f) : n = f.name.toList ++ n.drop f.name.length := by
  have hprefix : f.name.toList.isPrefixOf n = true :=
    List.find?_some (p := fun f : Callable => f.name.toList.isPrefixOf n) h
  obtain ⟨m, rfl⟩ := List.isPrefixOf_iff_prefix.mp hprefix
  rw [← String.length_toList, List.drop_left]

/-! ### The parts of a name -/

theorem split_whole {n : List Char} {tail : NameTail} (h : whole? n = some tail) :
    ∀ fuel, split fuel n = ⟨[], tail, n⟩
  | 0 => by rw [split, h, Option.getD_some]
  | fuel + 1 => by rw [split, h]

theorem split_unknown {n : List Char} (h : whole? n = none) (h' : Callable.ofPrefix? n = none) :
    ∀ fuel, split fuel n = ⟨[], .unknown, n⟩
  | 0 => by rw [split, h, Option.getD_none]
  | fuel + 1 => by rw [split, h, h']

theorem split_front {n : List Char} {f : Callable} (h : whole? n = none)
    (h' : Callable.ofPrefix? n = some f) (fuel : Nat) :
    split (fuel + 1) n =
      { split fuel (n.drop f.name.length) with
        front := f :: (split fuel (n.drop f.name.length)).front } := by
  rw [split, h, h']

theorem length_drop_lt {n : List Char} {f : Callable} (h : Callable.ofPrefix? n = some f) :
    (n.drop f.name.length).length < n.length := by
  have hlength := congrArg List.length (eq_append_of_ofPrefix? h)
  have hpos := name_pos f
  rw [List.length_append] at hlength
  omega

/-- **More fuel than the length of a name changes nothing.** -/
theorem split_eq_ofName (fuel : Nat) :
    ∀ n : List Char, n.length ≤ fuel → split fuel n = ofName n := by
  induction fuel using Nat.strongRecOn with
  | _ fuel ih =>
    intro n hn
    rw [ofName]
    rcases h : whole? n with _ | tail
    · rcases h' : Callable.ofPrefix? n with _ | f
      · rw [split_unknown h h', split_unknown h h']
      · have hlt := length_drop_lt h'
        obtain ⟨k, hk⟩ : ∃ k, n.length = k + 1 := ⟨n.length - 1, by omega⟩
        obtain ⟨j, rfl⟩ : ∃ j, fuel = j + 1 := ⟨fuel - 1, by omega⟩
        rw [hk, split_front h h', split_front h h', ih j (by omega) _ (by omega),
          ih k (by omega) _ (by omega)]
    · rw [split_whole h, split_whole h]

theorem ofName_whole {n : List Char} {tail : NameTail} (h : whole? n = some tail) :
    ofName n = ⟨[], tail, n⟩ := split_whole h _

theorem ofName_glued (f : Callable) (c : Char) (n : List Char) :
    ofName (f.name.toList ++ c :: n) =
      { ofName (c :: n) with front := f :: (ofName (c :: n)).front } := by
  have hlength : (f.name.toList ++ c :: n).length = f.name.toList.length + n.length + 1 := by
    rw [List.length_append, List.length_cons, Nat.add_assoc]
  have hpos := name_pos f
  have hdrop : (f.name.toList ++ c :: n).drop f.name.length = c :: n := by
    rw [← String.length_toList, List.drop_left]
  rw [ofName, hlength, split_front (whole?_glued f c n) (ofPrefix?_glued f _), hdrop,
    split_eq_ofName _ (c :: n) (by rw [List.length_cons]; omega)]

/-! ### Functions in front -/

section Front
variable {α : Type} [Scalar α]

/-- The functions applied to an operand from the inside out, if each accepts one argument. -/
def applyAll : List Callable → Expr α → Option (Expr α)
  | [], a => some a
  | f :: fs, a => (applyAll fs a).bind fun b => f.applied? [b]

theorem call_done_iff {f : Callable} {as : List (Expr α)} {span : Span} {e : Expr α}
    {r r' : Reader} : Read.call f as span r = .done e r' ↔ f.applied? as = some e ∧ r' = r := by
  unfold Read.call
  rcases hb : f.applied? as with _ | b
  · simp [Read.fail]
  · simp only [Read.pure_done_iff, Option.some.injEq, eq_comm (a := r)]

theorem applyFront_done_iff {a : Expr α} {r r' : Reader} :
    ∀ {fs : List Callable} {start : Nat} {e : Expr α},
      Read.applyFront a start fs r = .done e r' ↔ applyAll fs a = some e ∧ r' = r
  | [], start, e => by
    rw [Read.applyFront, Read.pure_done_iff, applyAll, Option.some.injEq, eq_comm (a := r)]
  | f :: fs, start, e => by
    simp only [Read.applyFront, Read.bind_done_iff, applyFront_done_iff, call_done_iff, applyAll,
      Option.bind_eq_some_iff]
    constructor
    · rintro ⟨b, r₁, ⟨hb, rfl⟩, he, rfl⟩
      exact ⟨⟨b, hb, he⟩, rfl⟩
    · rintro ⟨⟨b, hb, he⟩, rfl⟩
      exact ⟨b, r', ⟨hb, rfl⟩, he, rfl⟩

end Front

/-! ### Derivations of names -/

variable {α : Type} [Scalar α]

/-- What the tail of a name reads and stands for, when `applies` says so for functions. -/
def TailMeans (applies : Callable → List Token → Expr α → Prop) (ts : List Token) (a : Expr α) :
    NameTail → Prop
  | .constant c => ts = [] ∧ a = .const c.value
  | .variable c => ts = [] ∧ a = .var c
  | .function f => applies f ts a
  | .unknown => False

/-- What a name reads and stands for: what its tail does, with the functions in front applied. -/
def NameMeans (applies : Callable → List Token → Expr α → Prop) (n : List Char) (ts : List Token)
    (e : Expr α) : Prop :=
  ∃ a, TailMeans applies ts a (ofName n).tail ∧ applyAll (ofName n).front a = some e

section Rules
variable {applies : Callable → List Token → Expr α → Prop}

theorem NameMeans.constant {n : List Char} {c : Constant} (hc : Constant.ofName? n = some c) :
    NameMeans applies n [] (.const c.value) := by
  have hwhole : whole? n = some (.constant c) := by simp only [whole?, hc]
  refine ⟨.const c.value, ?_, ?_⟩ <;> rw [ofName_whole hwhole]
  · exact ⟨rfl, rfl⟩
  · rfl

theorem NameMeans.letter {c : Char} (hc : Constant.ofName? [c] = none) :
    NameMeans applies [c] [] (.var c) := by
  have hwhole : whole? [c] = some (.variable c) := by rw [whole?, hc]
  refine ⟨.var c, ?_, ?_⟩ <;> rw [ofName_whole hwhole]
  · exact ⟨rfl, rfl⟩
  · rfl

theorem NameMeans.function {f : Callable} {ts : List Token} {e : Expr α} (h : applies f ts e) :
    NameMeans applies f.name.toList ts e := by
  refine ⟨e, ?_, ?_⟩ <;> rw [ofName_whole (whole?_name f)]
  · exact h
  · rfl

theorem NameMeans.glued {f : Callable} {n : List Char} {ts : List Token} {a e : Expr α}
    (h : NameMeans applies n ts a) (he : f.applied? [a] = some e) :
    NameMeans applies (f.name.toList ++ n) ts e := by
  obtain ⟨b, htail, hfront⟩ := h
  cases n with
  | nil => exact htail.elim
  | cons c n =>
    refine ⟨b, ?_, ?_⟩ <;> rw [ofName_glued]
    · exact htail
    · rw [applyAll, hfront]
      exact he

end Rules

variable [Numeral α]

theorem derives_whole {n : List Char} {tail : NameTail} {ts : List Token} {a : Expr α}
    (hn : whole? n = some tail) (h : TailMeans (fun f => Derives (.application f)) ts a tail) :
    Derives (.named n) ts a := by
  unfold whole? at hn
  split at hn
  · next c hc =>
    rw [← Option.some.inj hn] at h
    obtain ⟨rfl, rfl⟩ := h
    exact .constant hc
  · next hc =>
    split at hn
    · next c =>
      rw [← Option.some.inj hn] at h
      obtain ⟨rfl, rfl⟩ := h
      exact .letter hc
    · obtain ⟨f, hf, rfl⟩ := Option.map_eq_some_iff.mp hn
      have hname : f.name.toList = n := by
        simpa using List.find?_some (p := fun f : Callable => f.name.toList == n) hf
      rw [← hname]
      exact .function h

theorem derives_split {ts : List Token} {a : Expr α} : ∀ (fuel : Nat) (n : List Char) {e : Expr α},
    TailMeans (fun f => Derives (.application f)) ts a (split fuel n).tail →
    applyAll (split fuel n).front a = some e → Derives (.named n) ts e
  | fuel, n, e, h, he => by
    rcases hn : whole? n with _ | tail
    · rcases hf : Callable.ofPrefix? n with _ | f
      · rw [split_unknown hn hf] at h
        exact h.elim
      · cases fuel with
        | zero =>
          rw [split, hn] at h
          exact h.elim
        | succ fuel =>
          rw [split_front hn hf] at h he
          obtain ⟨b, hb, he⟩ := Option.bind_eq_some_iff.mp he
          rw [eq_append_of_ofPrefix? hf]
          exact .glued (derives_split fuel _ h hb) he
    · rw [split_whole hn] at h he
      rw [← Option.some.inj he]
      exact derives_whole hn h

/-- **A name with its parts as the reader takes it apart has a derivation.** -/
theorem NameMeans.derives {n : List Char} {ts : List Token} {e : Expr α}
    (h : NameMeans (fun f => Derives (.application f)) n ts e) : Derives (.named n) ts e := by
  obtain ⟨a, htail, hfront⟩ := h
  exact derives_split _ n htail hfront

end SymbolicAlgebra.Grammar
