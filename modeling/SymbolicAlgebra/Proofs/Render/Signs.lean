import SymbolicAlgebra.Proofs.Plain.Render
import SymbolicAlgebra.Proofs.Double.Text
import SymbolicAlgebra.Render.Style
import SymbolicAlgebra.Text.Letter

/-! # Signs in renderings

A sum decides from its terms where to write a plus, and a minus is written wherever the text of a
term happens to begin with one. Both agree: a text that is not that of a sum begins with a minus if
and only if its expression is negative (`signed_annotated`, `signed_latex`). Most nodes begin with a
name, a bracket or a command. A power begins with its base, which stands without brackets only if it
is not negative. A product begins with its first factor, and no factor after it begins with a
minus. -/

namespace SymbolicAlgebra

/-- Numbers whose texts have a minus in front exactly if they are negative, also those that are not
finite. -/
class SignedNumeral (α : Type) [Scalar α] [Numeral α] : Prop extends LawfulNumeral α where
  startsWithMinus_text {x : α} : Scalar.isFinite x = false →
    Render.startsWithMinus (Numeral.text x) = Scalar.lt x Scalar.zero

namespace Render

variable {α : Type} [Scalar α] [Numeral α]

/-! ### Texts -/

theorem startsWithMinus_append {s t : String} (hs : startsWithMinus s = false)
    (ht : startsWithMinus t = false) : startsWithMinus (s ++ t) = false := by
  unfold startsWithMinus at hs ht ⊢
  rw [String.toList_append]
  generalize s.toList = cs at hs ⊢
  cases cs with
  | nil => exact ht
  | cons c cs => exact hs

/-- A text begins as it did after more is put behind it, unless it was empty. -/
theorem startsWithMinus_append_of_nonempty {s t : String} (hs : s.toList ≠ []) :
    startsWithMinus (s ++ t) = startsWithMinus s := by
  unfold startsWithMinus
  rw [String.toList_append, List.head?_append_of_ne_nil _ hs]

theorem startsWithMinus_inBrackets (s : String) : startsWithMinus (inBrackets s) = false := by
  simp [startsWithMinus, inBrackets]

theorem startsWithMinus_inGrowing (s : String) : startsWithMinus (inGrowing s) = false := by
  simp [startsWithMinus, inGrowing]

/-! ### Factors and terms -/

/-- What is put behind a text one by one, with something between, does not change how the text
begins, if none of it begins with a minus. Behind nothing, nothing is put between. -/
theorem startsWithMinus_foldl (space separator : String) (rest : List String) :
    (∀ s ∈ rest, startsWithMinus s = false) → ∀ out : String,
      startsWithMinus (rest.foldl (fun out s => out ++ gap space separator out s ++ s) out) =
        startsWithMinus out := by
  induction rest with
  | nil => exact fun _ _ => rfl
  | cons s rest ih =>
    intro h out
    obtain ⟨hs, hrest⟩ := List.forall_mem_cons.mp h
    rw [List.foldl_cons, ih hrest]
    rcases hout : out.toList with _ | ⟨c, cs⟩
    · have hgap : gap space separator out s = "" := by rw [gap, hout]; rfl
      obtain rfl : out = "" := String.toList_inj.mp hout
      rw [hgap, String.append_empty]
      exact startsWithMinus_append rfl hs
    · rw [String.append_assoc, startsWithMinus_append_of_nonempty (by simp [hout])]

variable {bracket : String → String} (hbracket : ∀ s, startsWithMinus (bracket s) = false)

include hbracket in
omit [Scalar α] [Numeral α] in
theorem startsWithMinus_laterFactor (f : Expr α) (s : String) :
    startsWithMinus (laterFactor bracket f s) = false := by
  unfold laterFactor
  split
  · exact hbracket s
  · next h =>
    rw [Bool.or_eq_true, not_or] at h
    simpa using h.2

include hbracket in
omit [Scalar α] [Numeral α] in
/-- **A product begins with its first factor**, or with a bracket. -/
theorem startsWithMinus_factors (space separator : String) (f : Expr α) (s : String)
    (rest : List (Expr α × String)) :
    startsWithMinus (factors space separator (factorTexts bracket ((f, s) :: rest))) =
      (!f.isSum && startsWithMinus s) := by
  have hfirst : startsWithMinus (if f.isSum then bracket s else s) =
      (!f.isSum && startsWithMinus s) := by
    cases f.isSum
    · rfl
    · exact hbracket s
  rw [← hfirst, factorTexts]
  generalize (if f.isSum then bracket s else s) = first
  rcases rest with _ | ⟨g, rest⟩
  · rfl
  · rw [factors]
    · rw [startsWithMinus_foldl]
      · split
        · next h => rw [h]; rfl
        · rfl
      · exact List.forall_mem_map.mpr fun p _ => startsWithMinus_laterFactor hbracket p.1 p.2
    · simp

/-- The plus that a sum writes in front of a text, unless the text begins with a minus. -/
def plusFor (text : String) : String := if startsWithMinus text then "" else "+"

omit [Numeral α] in
/-- **The terms of a sum**, each after the first with a plus unless it begins with a minus. -/
theorem toList_terms {render : Expr α → String} (t : Expr α) {ts : List (Expr α)}
    (hts : ∀ u ∈ ts, startsWithMinus (render u) = u.isNegative) :
    (terms ((t :: ts).map fun u => (u, render u))).toList =
      (render t).toList ++ ts.flatMap fun u => (plusFor (render u) ++ render u).toList := by
  rw [List.map_cons, terms, String.toList_append]
  congr 1
  induction ts with
  | nil => rfl
  | cons u us ih =>
    obtain ⟨hu, hus⟩ := List.forall_mem_cons.mp hts
    rw [List.map_cons, moreTerms, String.toList_append, ih hus, List.flatMap_cons, plusFor, hu]
    cases u.isNegative
    · rfl
    · simp

/-! ### Numbers -/

section Numbers

variable [SignedNumeral α]

theorem startsWithMinus_of_isDecimal {s : String} (h : Plain.IsDecimal s.toList) :
    startsWithMinus s = false := by
  obtain ⟨whole, hne, hwhole, hs⟩ := h
  obtain ⟨c, cs, rfl⟩ := List.exists_cons_of_ne_nil hne
  have hc := (List.forall_mem_cons.mp hwhole).1
  have hminus : c ≠ '-' := fun h => by simp [h] at hc
  unfold startsWithMinus
  rcases hs with hs | ⟨places, -, hs⟩ <;> simp [hs, hminus]

theorem startsWithMinus_text {x : α} (hzero : Scalar.eq x Scalar.zero = false) :
    startsWithMinus (Numeral.text x) = Scalar.lt x Scalar.zero := by
  rcases hfinite : Scalar.isFinite x
  · exact SignedNumeral.startsWithMinus_text hfinite
  · have hdecimal := startsWithMinus_of_isDecimal (LawfulNumeral.isDecimal_text hfinite hzero)
    rcases hneg : Scalar.lt x Scalar.zero
    · have hnan := LawfulNumeral.isNaN_of_isFinite hfinite
      have hpos : Scalar.lt Scalar.zero x = true := by
        by_contra hpos
        rw [(OrderedScalar.eq_iff hnan Plain.isNaN_zero).mpr ⟨hneg, by simpa using hpos⟩] at hzero
        cases hzero
      rw [LawfulNumeral.text_of_pos hfinite hpos, hdecimal]
    · rw [LawfulNumeral.text_of_neg hfinite hneg, startsWithMinus_append_of_nonempty (by simp)]
      rfl

/-- **A number begins with a minus if it is negative.** Zeros have no sign, and no named number is
negative. -/
theorem startsWithMinus_constant {write : Constant → String}
    (hwrite : ∀ c, startsWithMinus (write c) = false) (x : α) :
    startsWithMinus (constant write x) = Scalar.lt x Scalar.zero := by
  rw [constant]
  split
  · next c hc =>
    have heq : Scalar.eq (c.value : α) x = true := by simpa using List.find?_some hc
    have hpos := Plain.not_neg_of_pos
      (LawfulNumeral.isNaN_of_isFinite (LawfulNumeral.isFinite_constant (α := α) c))
      (LawfulNumeral.zero_lt_constant c)
    rw [hwrite, Plain.not_neg_of_eq heq hpos]
  · rw [number]
    split
    · next hzero =>
      obtain ⟨hx, hz⟩ := OrderedScalar.isNaN_of_eq hzero
      rw [((OrderedScalar.eq_iff hx hz).mp hzero).1]
      rfl
    · next hzero => exact startsWithMinus_text (Bool.eq_false_iff.mpr hzero)

end Numbers

end Render

/-! ### Renderings -/

namespace Expr

variable {α : Type}

/-- **Letters, and no nested sums and products**: every variable is a letter, no term of a sum is a
sum, and no factor of a product is a product. -/
structure Flat (e : Expr α) : Prop where
  isLetter {c : Char} : Occurs (var c) e → Text.isLetter c = true
  sum {ts : List (Expr α)} : Occurs (sum ts) e → ∀ t ∈ ts, ∀ us, t ≠ sum us
  product {fs : List (Expr α)} : Occurs (product fs) e → ∀ f ∈ fs, ∀ gs, f ≠ product gs

theorem Flat.of_occurs {t e : Expr α} (h : e.Flat) (ht : Occurs t e) : t.Flat :=
  ⟨fun hocc => h.isLetter (hocc.trans ht), fun hocc => h.sum (hocc.trans ht),
    fun hocc => h.product (hocc.trans ht)⟩

/-- A product is negative if its first factor is a negative number, and no other factor than a sum
or a product is negative otherwise. -/
theorem isNegative_product [Scalar α] {f : Expr α} {fs : List (Expr α)} (h : ∀ gs, f ≠ product gs) :
    (product (f :: fs)).isNegative = (!f.isSum && f.isNegative) := by
  rcases f with x | c | ⟨k, a⟩ | ⟨k, a, b⟩ | ⟨_ | _ | _ | _, as⟩
  case nary.product => exact absurd rfl (h as)
  all_goals rfl

end Expr

namespace Render

open SymbolicAlgebra.Expr (Flat Occurs)

variable {α : Type} [Scalar α] [Numeral α]

/-- **A rendering with signs**: numbers begin with a minus if they are negative, nodes other than
sums and products never do, and a sum and a product are put together from the texts of their terms
and factors. -/
structure Signed (render : Expr α → String) : Prop where
  const (x : α) : startsWithMinus (render (.const x)) = Scalar.lt x Scalar.zero
  var {c : Char} (hc : Text.isLetter c = true) : startsWithMinus (render (.var c)) = false
  unary (f : Unary) (a : Expr α) : startsWithMinus (render (.unary f a)) = false
  binary (f : Binary) {a : Expr α} (ha : a.Flat) (b : Expr α) :
    startsWithMinus (render (.binary f a b)) = false
  min (as : List (Expr α)) : startsWithMinus (render (.min as)) = false
  max (as : List (Expr α)) : startsWithMinus (render (.max as)) = false
  sum (ts : List (Expr α)) : render (.sum ts) = terms (ts.map fun t => (t, render t))
  product : ∃ space separator bracket, (∀ s, startsWithMinus (bracket s) = false) ∧
    ∀ fs : List (Expr α), render (.product fs) =
      factors space separator (factorTexts bracket (fs.map fun f => (f, render f)))

namespace Signed

variable {render : Expr α → String}

omit [Numeral α] in
/-- **A text begins with a minus if and only if its expression is negative**, if it is not that of a
sum. -/
theorem startsWithMinus_eq (h : Signed render) {e : Expr α} (hflat : e.Flat)
    (hsum : ∀ ts, e ≠ .sum ts) : startsWithMinus (render e) = e.isNegative := by
  induction e using Expr.induction_children with
  | node e ih =>
    rcases e with x | c | ⟨f, a⟩ | ⟨f, a, b⟩ | ⟨_ | _ | _ | _, as⟩
    case const => exact h.const x
    case var => exact h.var (hflat.isLetter (.self _))
    case unary => exact h.unary f a
    case binary => exact h.binary f (hflat.of_occurs (.inside List.mem_cons_self (.self a))) b
    case nary.sum => exact absurd rfl (hsum as)
    case nary.min => exact h.min as
    case nary.max => exact h.max as
    case nary.product =>
      obtain ⟨space, separator, bracket, hbracket, hproduct⟩ := h.product
      rw [hproduct]
      rcases as with _ | ⟨f, fs⟩
      · rfl
      · have hfirst := hflat.product (.self _) f List.mem_cons_self
        rw [List.map_cons, startsWithMinus_factors hbracket, Expr.isNegative_product hfirst]
        rcases hf : f.isSum
        · rw [ih f List.mem_cons_self (hflat.of_occurs (.inside List.mem_cons_self (.self f)))]
          rintro ts rfl
          cases hf
        · rfl

end Signed

/-! ### Annotated text and LaTeX -/

omit [Numeral α] in
/-- The base of a power without brackets is a letter, a number that is not negative, or a
bracket. -/
theorem startsWithMinus_base {render : Expr α → String}
    (const : ∀ x, startsWithMinus (render (.const x)) = Scalar.lt x Scalar.zero)
    (var : ∀ c, Text.isLetter c = true → startsWithMinus (render (.var c)) = false)
    (bracket : ∀ kind a, startsWithMinus (render (.bracket kind a)) = false)
    {a : Expr α} (ha : a.Flat) (h : baseNeedsBrackets a = false) :
    startsWithMinus (render a) = false := by
  unfold baseNeedsBrackets at h
  split at h
  · exact var _ (ha.isLetter (.self _))
  · exact bracket _ _
  · rw [const, h]
  · cases h

theorem startsWithMinus_letter {c : Char} (hc : Text.isLetter c = true) :
    startsWithMinus c.toString = false := by
  have hminus : c ≠ '-' := fun h => by rw [h] at hc; revert hc; decide +kernel
  simp [startsWithMinus, hminus]

theorem zip_annotatedList (as : List (Expr α)) :
    as.zip (annotatedList as) = as.map fun a => (a, annotated a) := by
  induction as with
  | nil => rfl
  | cons a as ih => rw [annotatedList, List.zip_cons_cons, ih, List.map_cons]

theorem zip_latexList (as : List (Expr α)) :
    as.zip (latexList as) = as.map fun a => (a, latex a) := by
  induction as with
  | nil => rfl
  | cons a as ih => rw [latexList, List.zip_cons_cons, ih, List.map_cons]

theorem startsWithMinus_annotated_unary (f : Unary) (a : Expr α) :
    startsWithMinus (annotated (.unary f a)) = false := by
  rcases f with kind | kind | _
  · cases kind <;> simp [startsWithMinus, annotated, Bracket.glyphs]
  · cases kind <;> simp [startsWithMinus, annotated, annotatedCall, Trig.name]
  · simp [startsWithMinus, annotated, application]

theorem startsWithMinus_latex_unary (f : Unary) (a : Expr α) :
    startsWithMinus (latex (.unary f a)) = false := by
  rcases f with kind | kind | _
  · cases kind <;> simp [startsWithMinus, latex, Bracket.delimiters]
  · cases kind <;> simp [startsWithMinus, latex, latexCall, latexTrig, Trig.isInverse]
  · simp [startsWithMinus, latex, latexApplication]

variable [SignedNumeral α]

theorem startsWithMinus_annotated_const (x : α) :
    startsWithMinus (annotated (.const x)) = Scalar.lt x Scalar.zero := by
  rw [annotated, startsWithMinus_constant]
  exact fun c => by cases c <;> decide

theorem startsWithMinus_latex_const (x : α) :
    startsWithMinus (latex (.const x)) = Scalar.lt x Scalar.zero := by
  rw [latex, startsWithMinus_constant]
  exact fun c => by cases c <;> decide

theorem signed_annotated : Signed (annotated : Expr α → String) where
  const := startsWithMinus_annotated_const
  var hc := startsWithMinus_letter hc
  unary := startsWithMinus_annotated_unary
  binary f a ha b := by
    cases f with
    | fraction => exact startsWithMinus_inBrackets _
    | power =>
      rw [annotated]
      split
      · simp [startsWithMinus]
      · rw [String.append_assoc]
        refine startsWithMinus_append ?_ (startsWithMinus_append_of_nonempty (by simp))
        rcases hbase : baseNeedsBrackets a
        · exact startsWithMinus_base startsWithMinus_annotated_const
            (fun _ => startsWithMinus_letter) (fun _ => startsWithMinus_annotated_unary _) ha hbase
        · exact startsWithMinus_inBrackets _
    | log =>
      rw [annotated, annotatedLog]
      split <;> simp [startsWithMinus, annotatedCall]
    | mod => simp [startsWithMinus, annotated, application]
  min as := by simp [startsWithMinus, annotated, application]
  max as := by simp [startsWithMinus, annotated, application]
  sum ts := by rw [annotated, zip_annotatedList]
  product := ⟨"", "·", inBrackets, startsWithMinus_inBrackets, fun fs => by
    rw [annotated, zip_annotatedList]⟩

theorem signed_latex : Signed (latex : Expr α → String) where
  const := startsWithMinus_latex_const
  var hc := startsWithMinus_letter hc
  unary := startsWithMinus_latex_unary
  binary f a ha b := by
    cases f with
    | fraction => simp [startsWithMinus, latex]
    | power =>
      rw [latex]
      split
      · simp [startsWithMinus]
      · rw [String.append_assoc]
        refine startsWithMinus_append ?_ (startsWithMinus_append_of_nonempty (by simp))
        rcases hbase : baseNeedsBrackets a
        · exact startsWithMinus_base startsWithMinus_latex_const
            (fun _ => startsWithMinus_letter) (fun _ => startsWithMinus_latex_unary _) ha hbase
        · exact startsWithMinus_inGrowing _
    | log =>
      rw [latex, latexCall]
      split <;> simp [startsWithMinus]
    | mod => simp [startsWithMinus, latex, latexApplication]
  min as := by simp [startsWithMinus, latex, latexApplication]
  max as := by simp [startsWithMinus, latex, latexApplication]
  sum ts := by rw [latex, zip_latexList]
  product := ⟨" ", " \\cdot ", inGrowing, startsWithMinus_inGrowing, fun fs => by
    rw [latex, zip_latexList]⟩

theorem signed_render : ∀ {style : Style}, style ≠ .plain →
    Signed (Expr.render style : Expr α → String)
  | .plain, h => absurd rfl h
  | .annotated, _ => signed_annotated
  | .latex, _ => signed_latex

end Render

namespace Double

open Float.Model (UnpackedFloat)

/-- The text of a double that is not finite. -/
theorem text_not_finite {x : Float} (h : (parts x).isFinite = false) : text x =
    if Scalar.isNaN x then "NaN" else if Scalar.lt x Scalar.zero then "-inf" else "inf" := by
  have hdyadic : Dyadic.ofFloat? x = none := by
    rw [ofFloat?_eq]
    generalize parts x = u at h
    cases u <;> first | rfl | cases h
  have hnan : x.isNaN = (parts x).isNaN := rfl
  have hneg : x < 0 ↔ Scalar.lt x Scalar.zero = true := decide_eq_true_iff.symm
  rw [text, hdyadic, isNaN_eq]
  simp only [hnan, hneg]

theorem lt_zero_of_isNaN {x : Float} (h : Scalar.isNaN x = true) :
    Scalar.lt x Scalar.zero = false := by
  rw [isNaN_eq] at h
  rw [lt_eq_lt]
  generalize parts x = u at h
  cases u <;> first | rfl | cases h

instance : SignedNumeral Float where
  startsWithMinus_text {x} h := by
    have htext : Numeral.text x = _ := text_not_finite h
    rw [htext]
    rcases hnan : Scalar.isNaN x
    · rcases Scalar.lt x Scalar.zero <;> decide
    · rw [lt_zero_of_isNaN hnan]
      decide

end Double

namespace Render

open SymbolicAlgebra.Expr (Flat Occurs)

/-- **Exactly one sign between two terms.** In an expression of letters without nested sums and
products, the annotated text and the LaTeX of every part that is not a sum begin with a minus if and
only if the part is negative. So in the text of every sum each term after the first has exactly one
sign in front: a plus that the sum writes, if the text of the term does not begin with a minus, and
the minus that it begins with otherwise. -/
theorem one_sign_between_terms {α : Type} [Scalar α] [Numeral α] [SignedNumeral α] {e : Expr α}
    (hflat : e.Flat) {style : Style} (hstyle : style ≠ .plain) :
    (∀ t, Occurs t e → (∀ ts, t ≠ .sum ts) →
      (startsWithMinus (t.render style) = true ↔ t.isNegative = true)) ∧
    ∀ t ts, Occurs (.sum (t :: ts)) e →
      ((Expr.sum (t :: ts)).render style).toList = (t.render style).toList ++
        ts.flatMap fun u => (plusFor (u.render style) ++ u.render style).toList := by
  have hsigned := signed_render (α := α) hstyle
  refine ⟨fun t ht hsum => ?_, fun t ts hocc => ?_⟩
  · rw [hsigned.startsWithMinus_eq (hflat.of_occurs ht) hsum]
  · rw [hsigned.sum, toList_terms]
    intro u hu
    have hu := List.mem_cons_of_mem t hu
    have hocc' : Occurs u e := (Occurs.inside hu (.self u)).trans hocc
    exact hsigned.startsWithMinus_eq (hflat.of_occurs hocc') (hflat.sum hocc u hu)

/-- In `-2 y+x-1` the terms that are negative bring their own sign. -/
theorem one_sign_between_terms_line :
    let x : Expr Float := .var 'x'
    let y : Expr Float := .product [.const (-2), .var 'y']
    let e : Expr Float := .sum [y, x, .const (-1)]
    e.Flat ∧ startsWithMinus (y.render .latex) = true ∧ startsWithMinus (x.render .latex) = false ∧
      (e.render .latex).toList = (y.render .latex).toList ++
        [x, .const (-1)].flatMap fun u => (plusFor (u.render .latex) ++ u.render .latex).toList := by
  intro x y e
  have hflat : e.Flat := by
    refine ⟨fun {c} hocc => ?_, fun {ts} hocc t ht us hus => ?_, fun {fs} hocc f hf gs hgs => ?_⟩
    · obtain rfl | rfl : c = 'y' ∨ c = 'x' := by simpa [e, x, y] using hocc
      all_goals exact Text.isLetter_of_isAlpha (by decide)
    · obtain rfl : ts = [y, x, .const (-1)] := by simpa [e, x, y] using hocc
      subst hus
      simp [x, y] at ht
    · obtain rfl : fs = [.const (-2), .var 'y'] := by simpa [e, x, y] using hocc
      subst hgs
      simp at hf
  have hstyle : Style.latex ≠ .plain := by decide
  obtain ⟨hminus, hsum⟩ := one_sign_between_terms hflat hstyle
  have hy : Occurs y e := .inside List.mem_cons_self (.self y)
  have hx : Occurs x e := .inside (List.mem_cons_of_mem _ List.mem_cons_self) (.self x)
  refine ⟨hflat, (hminus y hy (by simp [y])).mpr (by decide +kernel), ?_, hsum y _ (.self e)⟩
  rw [Bool.eq_false_iff, ne_eq, hminus x hx (by simp [x])]
  decide

end Render

end SymbolicAlgebra
