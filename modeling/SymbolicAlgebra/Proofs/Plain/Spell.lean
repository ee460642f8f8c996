import SymbolicAlgebra.Proofs.Grammar.Derivation
import SymbolicAlgebra.Proofs.Plain.Scan
import SymbolicAlgebra.Render.Plain

/-! # Texts that spell phrases

A text spells an expression as a phrase of the grammar if its tokens are such a phrase. Bracketed
texts are atoms, so every text that plain rendering puts together spells an expression that is put
together from those of its parts in the same way. -/

namespace SymbolicAlgebra.Plain

open Grammar (Derives Phrase)

variable {α : Type} [Scalar α] [Numeral α]

/-- **The text is a phrase with this meaning**, whatever text that starts with a mark follows. -/
def Spells (p : Phrase) (text : List Char) (x : p.Meaning α) : Prop :=
  ∃ ts, Scans text ts ∧ Derives p ts x

/-- The text in round brackets. -/
def bracketed (text : List Char) : List Char := '(' :: text ++ [')']

theorem isMark_plus : IsMark '+' := by unfold IsMark; decide

theorem isMark_minus : IsMark '-' := by unfold IsMark; decide

theorem isMark_times : IsMark '*' := by unfold IsMark; decide

theorem isMark_slash : IsMark '/' := by unfold IsMark; decide

theorem isMark_caret : IsMark '^' := by unfold IsMark; decide

theorem isMark_comma : IsMark ',' := by unfold IsMark; decide

theorem isMark_underscore : IsMark '_' := by unfold IsMark; decide

theorem isMark_opening : IsMark '(' := by unfold IsMark; decide

theorem isMark_closing : IsMark ')' := by unfold IsMark; decide

theorem Breaks.cons {c : Char} {cs : List Char} (hc : IsMark c) : Breaks (c :: cs) := by
  intro d hd
  rw [List.head?_cons, Option.mem_some_iff] at hd
  rwa [← hd]

theorem Breaks.flatMap {c : Char} (hc : IsMark c) {β : Type} {f : β → List Char} :
    ∀ {xs : List β}, Breaks (xs.flatMap fun x => c :: f x)
  | [] => fun _ hd => nomatch hd
  | _ :: _ => .cons hc

theorem scans_callable (f : Callable) : Scans f.name.toList [⟨.name, 0, f.name.toList⟩] := by
  refine scans_name ?_ (List.all_eq_true.mp ?_)
  · rcases f with kind | kind | _ | _ | _ | _ | _ | _ | _ | _ <;> (try cases kind) <;> decide
  · rcases f with kind | kind | _ | _ | _ | _ | _ | _ | _ | _ <;> (try cases kind) <;> decide

theorem Scans.bracketed {text : List Char} {ts : List Token} (h : Scans text ts) :
    Scans (bracketed text) (Plain.mark '(' :: ts ++ [Plain.mark ')']) :=
  .mark isMark_opening (h.append (.mark isMark_closing .nil) (.cons isMark_closing))

namespace Spells

/-! ### From the tightest to the loosest -/

theorem power {signed : Bool} {text : List Char} {e : Expr α} (h : Spells .atom text e) :
    Spells (.power signed) text e := by
  obtain ⟨ts, hscan, hatom⟩ := h
  exact ⟨ts, hscan, .power hatom⟩

theorem quotient {signed : Bool} {text : List Char} {e : Expr α}
    (h : Spells (.power signed) text e) : Spells (.quotient signed) text e := by
  obtain ⟨ts, hscan, hpower⟩ := h
  exact ⟨ts, hscan, .quotient hpower⟩

theorem product {text : List Char} {e : Expr α} (h : Spells (.quotient false) text e) :
    Spells .product text e := by
  obtain ⟨ts, hscan, hquotient⟩ := h
  have hproduct := Derives.product hquotient .noFactors
  rw [List.append_nil] at hproduct
  exact ⟨ts, hscan, hproduct⟩

theorem sum {text : List Char} {e : Expr α} (h : Spells .product text e) :
    Spells .sum text e := by
  obtain ⟨ts, hscan, hproduct⟩ := h
  have hsum := Derives.sum hproduct .noTerms
  rw [List.append_nil] at hsum
  exact ⟨ts, hscan, hsum⟩

theorem atom_sum {text : List Char} {e : Expr α} (h : Spells .atom text e) : Spells .sum text e :=
  h.power.quotient.product.sum

/-! ### Operators -/

theorem group {text : List Char} {e : Expr α} (h : Spells .sum text e) :
    Spells .atom (bracketed text) e := by
  obtain ⟨ts, hscan, hsum⟩ := h
  exact ⟨_, hscan.bracketed, .group rfl hsum rfl⟩

/-- The form `(a)^(b)`. -/
theorem raised {text more : List Char} {a b : Expr α} (ha : Spells .sum text a)
    (hb : Spells .sum more b) :
    Spells .sum (bracketed text ++ '^' :: bracketed more) (.power a b) := by
  obtain ⟨ts, hscan, hbase⟩ := ha.group
  obtain ⟨us, hscan', hexponent⟩ := hb.group
  have hpower : Derives (.power false) _ (Expr.power a b) :=
    .raised (t := Plain.mark '^') hbase rfl (.power hexponent)
  have hscans := hscan.append (hscan'.mark isMark_caret) (.cons isMark_caret)
  exact quotient ⟨_, hscans, hpower⟩ |>.product.sum

/-- The form `(a)/(b)`. -/
theorem fraction {text more : List Char} {a b : Expr α} (ha : Spells .sum text a)
    (hb : Spells .sum more b) :
    Spells .sum (bracketed text ++ '/' :: bracketed more) (.fraction a b) := by
  obtain ⟨ts, hscan, hnum⟩ := ha.group
  obtain ⟨us, hscan', hden⟩ := hb.group
  have hfraction : Derives (.quotient false) _ (Expr.fraction a b) :=
    .fraction (t := Plain.mark '/') (.power hnum) rfl (.quotient (.power hden))
  have hscans := hscan.append (hscan'.mark isMark_slash) (.cons isMark_slash)
  exact product ⟨_, hscans, hfraction⟩ |>.sum

/-- The form `+(a)+(b)...`. -/
theorem terms : ∀ {texts : List (List Char)} {es : List (Expr α)},
    List.Forall₂ (Spells .sum) texts es →
    Spells .terms (texts.flatMap fun text => '+' :: bracketed text) es
  | [], [], _ => ⟨[], .nil, .noTerms⟩
  | text :: texts, e :: es, h => by
    obtain ⟨ha, hrest⟩ := List.forall₂_cons.mp h
    obtain ⟨ts, hscan, hterm⟩ := ha.group.power.quotient.product
    obtain ⟨us, hscan', hterms⟩ := terms hrest
    have hscans := (hscan.mark isMark_plus).append hscan' (.flatMap isMark_plus)
    exact ⟨_, hscans, .plus rfl hterm hterms⟩

/-- The form `*(a)*(b)...`. -/
theorem factors : ∀ {texts : List (List Char)} {es : List (Expr α)} (closed : Bool),
    List.Forall₂ (Spells .sum) texts es →
    Spells (.factors closed) (texts.flatMap fun text => '*' :: bracketed text) es
  | [], [], _, _ => ⟨[], .nil, .noFactors⟩
  | text :: texts, e :: es, closed, h => by
    obtain ⟨ha, hrest⟩ := List.forall₂_cons.mp h
    obtain ⟨ts, hscan, hfactor⟩ := ha.group.power.quotient
    obtain ⟨us, hscan', hfactors⟩ := factors (Grammar.endsClosed ts) hrest
    have hscans := (hscan.mark isMark_times).append hscan' (.flatMap isMark_times)
    exact ⟨_, hscans, .times rfl hfactor hfactors⟩

/-- The form `(a)+(b)...`. -/
theorem added {text : List Char} {texts : List (List Char)} {e : Expr α} {es : List (Expr α)}
    (h : Spells .sum text e) (hs : List.Forall₂ (Spells .sum) texts es) :
    Spells .sum (bracketed text ++ texts.flatMap fun text => '+' :: bracketed text)
      (Read.combine Expr.sumOf (e :: es)) := by
  obtain ⟨ts, hscan, hterm⟩ := h.group.power.quotient.product
  obtain ⟨us, hscan', hterms⟩ := terms hs
  exact ⟨_, hscan.append hscan' (.flatMap isMark_plus), .sum hterm hterms⟩

/-- The form `(a)*(b)...`. -/
theorem multiplied {text : List Char} {texts : List (List Char)} {e : Expr α} {es : List (Expr α)}
    (h : Spells .sum text e) (hs : List.Forall₂ (Spells .sum) texts es) :
    Spells .sum (bracketed text ++ texts.flatMap fun text => '*' :: bracketed text)
      (Read.combine Expr.productOf (e :: es)) := by
  obtain ⟨ts, hscan, hfactor⟩ := h.group.power.quotient
  obtain ⟨us, hscan', hfactors⟩ := factors (Grammar.endsClosed ts) hs
  exact sum ⟨_, hscan.append hscan' (.flatMap isMark_times), .product hfactor hfactors⟩

/-! ### Calls -/

/-- The form `a,b,...`. -/
theorem args : ∀ {text : List Char} {texts : List (List Char)} {e : Expr α} {es : List (Expr α)},
    Spells .sum text e → List.Forall₂ (Spells .sum) texts es →
    Spells .args (text ++ texts.flatMap fun text => ',' :: text) (e :: es)
  | text, [], e, [], ha, _ => by
    obtain ⟨ts, hscan, hsum⟩ := ha
    rw [List.flatMap_nil, List.append_nil]
    exact ⟨ts, hscan, .arg hsum⟩
  | text, next :: texts, e, a :: es, ha, h => by
    obtain ⟨ts, hscan, hsum⟩ := ha
    obtain ⟨hnext, hrest⟩ := List.forall₂_cons.mp h
    obtain ⟨us, hscan', hargs⟩ := args hnext hrest
    have hscans := hscan.append (hscan'.mark isMark_comma) (.cons isMark_comma)
    exact ⟨_, hscans, .args hsum rfl hargs⟩

/-- The form `f(...)`. -/
theorem call {f : Callable} {text : List Char} {as : List (Expr α)} {e : Expr α}
    (h : Spells .args text as) (he : f.applied? as = some e) :
    Spells .atom (f.name.toList ++ bracketed text) e := by
  obtain ⟨ts, hscan, hargs⟩ := h
  have hscans := (scans_callable f).append hscan.bracketed (.cons isMark_opening)
  exact ⟨_, hscans, .name rfl (.function (.call rfl hargs rfl he))⟩

/-- The form `log_(a)_(b)`. -/
theorem log {text more : List Char} {a b : Expr α} (ha : Spells .sum text a)
    (hb : Spells .sum more b) :
    Spells .atom ("log".toList ++ '_' :: bracketed text ++ '_' :: bracketed more) (.log a b) := by
  obtain ⟨ts, hscan, hbase⟩ := ha.group
  obtain ⟨us, hscan', harg⟩ := hb.group
  have hscans := ((scans_callable .log).append (hscan.mark isMark_underscore)
    (.cons isMark_underscore)).append (hscan'.mark isMark_underscore) (.cons isMark_underscore)
  exact ⟨_, hscans, .name rfl (.function (.log rfl hbase rfl harg))⟩

/-! ### Names and numbers -/

theorem number {text : List Char} {x : α} (h : IsDecimal text) (hx : Numeral.read text = some x) :
    Spells .atom text (.const x) :=
  ⟨_, scans_number h, .number rfl hx⟩

theorem constant (c : Constant) : Spells .atom c.name.toList (.const (c.value : α)) := by
  have hname : Constant.ofName? c.name.toList = some c := by cases c <;> decide
  have hscan : Scans c.name.toList [⟨.name, 0, c.name.toList⟩] := by
    refine scans_name ?_ (List.all_eq_true.mp ?_) <;> cases c <;> decide
  exact ⟨_, hscan, .name rfl (.constant hname)⟩

theorem letter {c : Char} (h : c.isAlpha = true) (he : c ≠ 'e') :
    Spells .atom [c] (.var c : Expr α) := by
  have hname : Constant.ofName? [c] = none := by
    simp [Constant.ofName?, Constant.all, Constant.name, Ne.symm he]
  exact ⟨_, scans_name (by simp) (by simpa using h), .name rfl (.letter hname)⟩

/-- The form `-x` of a number. -/
theorem negated {text : List Char} {x : α} (h : IsDecimal text)
    (hx : Numeral.read text = some x) : Spells .sum ('-' :: text) (Expr.const x).neg := by
  obtain ⟨ts, hscan, hproduct⟩ := (number h hx).power.quotient.product
  have hsum := Derives.negatedSum (t := Plain.mark '-') rfl hproduct .noTerms
  rw [List.append_nil] at hsum
  exact ⟨_, hscan.mark isMark_minus, hsum⟩

end Spells

end SymbolicAlgebra.Plain
