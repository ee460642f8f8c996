import SymbolicAlgebra.Proofs.Congruence.Number
import SymbolicAlgebra.Proofs.Order.Sort
import SymbolicAlgebra.Simplify.Task

/-! # The shape of equal expressions

Structurally equal expressions are the same kind of node with equal parts (`Same.node`), so what is
read off an expression is the same for both. A solver is congruent if it treats equal tasks alike:
it gives up on both or finds equal results. -/

theorem Option.Rel.bind {β β' γ γ' : Type} {R : β → β' → Prop} {S : γ → γ' → Prop}
    {x : Option β} {x' : Option β'} {f : β → Option γ} {f' : β' → Option γ'}
    (h : Option.Rel R x x') (hf : ∀ ⦃b b'⦄, R b b' → Option.Rel S (f b) (f' b')) :
    Option.Rel S (x >>= f) (x' >>= f') :=
  match h with
  | .some h => hf h
  | .none => .none

theorem Option.Rel.isNone_eq {β γ : Type} {R : β → γ → Prop} {x : Option β} {y : Option γ}
    (h : Option.Rel R x y) : x.isNone = y.isNone := by
  cases h <;> rfl

namespace SymbolicAlgebra

variable {α : Type} [Scalar α]

namespace Expr

/-- Two expressions of the same kind with structurally equal parts. -/
inductive SameNode : Expr α → Expr α → Prop
  | const {x y : α} (h : Scalar.Same x y) : SameNode (.const x) (.const y)
  | var (c : Char) : SameNode (.var c) (.var c)
  | unary (f : Unary) {a b : Expr α} (h : Same a b) : SameNode (.unary f a) (.unary f b)
  | binary (f : Binary) {a b c d : Expr α} (h : Same a c) (h' : Same b d) :
    SameNode (.binary f a b) (.binary f c d)
  | nary (f : Nary) {as bs : List (Expr α)} (h : List.Forall₂ Same as bs) :
    SameNode (.nary f as) (.nary f bs)

namespace Same

/-- **Structural equality is by kind and by parts.** -/
theorem node : ∀ {a b : Expr α}, Same a b → SameNode a b
  | .const x, b, h => by
    cases b with
    | const y => exact .const h
    | _ => cases h
  | .var c, b, h => by
    cases b with
    | var d =>
      rw [Same, beq, beq_iff_eq] at h
      exact h ▸ .var c
    | _ => cases h
  | .unary f a, b, h => by
    cases b with
    | unary g b =>
      rw [Same, beq, Bool.and_eq_true, beq_iff_eq] at h
      exact h.1 ▸ .unary f h.2
    | _ => cases h
  | .binary f a a', b, h => by
    cases b with
    | binary g b b' =>
      rw [Same, beq, Bool.and_eq_true, Bool.and_eq_true, beq_iff_eq] at h
      exact h.1.1 ▸ .binary f h.1.2 h.2
    | _ => cases h
  | .nary f as, b, h => by
    cases b with
    | nary g bs =>
      rw [Same, beq, Bool.and_eq_true, beq_iff_eq] at h
      exact h.1 ▸ .nary f (beqList_iff.mp h.2)
    | _ => cases h

theorem of_numbers {x y : α} (h : Scalar.Same x y) : Same (.const x) (.const y) := h

theorem beq_eq [OrderedScalar α] {a b a' b' : Expr α} (h : Same a a') (h' : Same b b') :
    (a == b) = (a' == b') :=
  Bool.eq_iff_iff.mpr
    ⟨fun hab => (h.symm.trans hab).trans h', fun hab => (h.trans hab).trans h'.symm⟩

theorem beqList_eq [OrderedScalar α] {as bs as' bs' : List (Expr α)} (h : List.Forall₂ Same as as')
    (h' : List.Forall₂ Same bs bs') : beqList as bs = beqList as' bs' :=
  (nary .sum h).beq_eq (nary .sum h')

/-! What an expression is not, an equal expression is not either. -/

section Not

variable {a b : Expr α} (h : Same a b)
include h

theorem not_const (ha : ∀ x, a = .const x → False) : ∀ x, b = .const x → False := by
  rintro x rfl
  cases h.node
  exact ha _ rfl

theorem not_binary {f : Binary} (ha : ∀ c d, a = .binary f c d → False) :
    ∀ c d, b = .binary f c d → False := by
  rintro c d rfl
  cases h.node
  exact ha _ _ rfl

theorem not_nary {f : Nary} (ha : ∀ cs, a = .nary f cs → False) :
    ∀ cs, b = .nary f cs → False := by
  rintro cs rfl
  cases h.node
  exact ha _ rfl

end Not

/-! ### What is read off -/

mutual

theorem size_eq : ∀ {a b : Expr α}, Same a b → a.size = b.size
  | .const _, _, h => by
    cases h.node
    rfl
  | .var _, _, h => by
    cases h.node
    rfl
  | .unary f a, _, h => by
    cases h.node with | unary f ha => rw [size, size, size_eq ha]
  | .binary f a b, _, h => by
    cases h.node with | binary f ha hb => rw [size, size, size_eq ha, size_eq hb]
  | .nary f as, _, h => by
    cases h.node with | nary f hs => rw [size, size, sizeList_eq hs]

theorem sizeList_eq : ∀ {as bs : List (Expr α)}, List.Forall₂ Same as bs →
    sizeList as = sizeList bs
  | [], _, .nil => rfl
  | _ :: _, _, .cons h hs => by rw [sizeList, sizeList, size_eq h, sizeList_eq hs]

end

variable {a b : Expr α}

theorem constant?_rel (h : Same a b) : Option.Rel Scalar.Same a.constant? b.constant? := by
  cases h.node with
  | const hx => exact .some hx
  | _ => exact .none

theorem isConst_eq (h : Same a b) : a.isConst = b.isConst := by
  cases h.node <;> rfl

theorem isSum_eq (h : Same a b) : a.isSum = b.isSum := by
  cases h.node with
  | nary f _ => cases f <;> rfl
  | _ => rfl

theorem leadingCoefficient?_rel (h : Same a b) :
    Option.Rel Scalar.Same a.leadingCoefficient? b.leadingCoefficient? := by
  cases h.node with
  | nary f hs =>
    match f, hs with
    | .product, .cons hc _ =>
      cases hc.node with
      | const hx => exact .some hx
      | _ => exact .none
    | .product, .nil => exact .none
    | .sum, _ => exact .none
    | .min, _ => exact .none
    | .max, _ => exact .none
  | _ => exact .none

theorem recip [OrderedScalar α] (h : Same a b) : Same a.recip b.recip :=
  binary .power h (refl _)

theorem downgrade [OrderedScalar α] (h : Same a b) : Same a.downgrade b.downgrade := by
  cases h.node with
  | nary f hs =>
    match f, hs with
    | .sum, .nil => exact refl _
    | .sum, .cons h .nil => exact h
    | .sum, .cons _ (.cons _ _) => exact h
    | .product, .nil => exact refl _
    | .product, .cons h .nil => exact h
    | .product, .cons _ (.cons _ _) => exact h
    | .min, _ => exact h
    | .max, _ => exact h
  | _ => exact h

variable [CongruentScalar α]

theorem isConstant_eq (x : α) (h : Same a b) : a.isConstant x = b.isConstant x := by
  cases h.node with
  | const hy => exact hy.eq_eq (.refl x)
  | _ => rfl

theorem isNegative_eq (h : Same a b) : a.isNegative = b.isNegative := by
  have hleading := h.leadingCoefficient?_rel
  generalize ha : a.leadingCoefficient? = x, hb : b.leadingCoefficient? = y at hleading
  cases h.node with
  | const hx => exact hx.lt_eq (.refl Scalar.zero)
  | nary f hs =>
    rw [isNegative.eq_2 _ nofun, isNegative.eq_2 _ nofun, ha, hb]
    cases hleading with
    | some hx => exact hx.lt_eq (.refl Scalar.zero)
    | none => rfl
  | _ => rfl

end Same

/-! ### Arguments -/

section Arguments

variable {as bs : List (Expr α)} (h : List.Forall₂ Same as bs)
include h

theorem isEmpty_eq : as.isEmpty = bs.isEmpty := by
  cases h <;> rfl

theorem filter_same {p : Expr α → Bool} (hp : ∀ {a b : Expr α}, Same a b → p a = p b) :
    List.Forall₂ Same (as.filter p) (bs.filter p) :=
  List.rel_filter (fun a b hab => show p a = true ↔ p b = true by rw [hp hab]) h

theorem any_eq {p : Expr α → Bool} (hp : ∀ {a b : Expr α}, Same a b → p a = p b) :
    as.any p = bs.any p := by
  induction h with
  | nil => rfl
  | cons h _ ih => rw [List.any_cons, List.any_cons, hp h, ih]

theorem constants_same :
    List.Forall₂ Scalar.Same (as.filterMap constant?) (bs.filterMap constant?) :=
  List.rel_filterMap (fun _ _ => Same.constant?_rel) h

end Arguments

variable [OrderedScalar α]

namespace Same

variable {as bs : List (Expr α)}

theorem sumOf (h : List.Forall₂ Same as bs) : Same (sumOf as) (sumOf bs) :=
  nary .sum (arrange_congr .sum h)

theorem productOf (h : List.Forall₂ Same as bs) : Same (productOf as) (productOf bs) :=
  nary .product (arrange_congr .product h)

theorem minOf (h : List.Forall₂ Same as bs) : Same (minOf as) (minOf bs) :=
  nary .min (arrange_congr .min h)

theorem maxOf (h : List.Forall₂ Same as bs) : Same (maxOf as) (maxOf bs) :=
  nary .max (arrange_congr .max h)

end Same

/-- What a list amounts to if one expression amounts to itself and two constants are combined. -/
theorem combined_or {op : α → α → α}
    (hop : ∀ {x y x' y' : α}, Scalar.Same x x' → Scalar.Same y y' → Scalar.Same (op x y) (op x' y'))
    {e : Expr α} {rest : List (Expr α) → Option (Expr α)} {as bs : List (Expr α)} :
    List.Forall₂ Same as bs → Option.Rel Same (rest as) (rest bs) →
    Option.Rel Same
      (match as with
        | [] => some e
        | [a] => some a
        | [.const x, .const y] => some (.const (op x y))
        | as => rest as)
      (match bs with
        | [] => some e
        | [b] => some b
        | [.const x, .const y] => some (.const (op x y))
        | bs => rest bs)
  | .nil, _ => .some (.refl e)
  | .cons h .nil, _ => .some h
  | .cons h (.cons h' .nil), hrest => by
    cases h.node with
    | const hx =>
      cases h'.node with
      | const hy => exact .some (.of_numbers (hop hx hy))
      | _ => exact hrest
    | _ => cases h'.node <;> exact hrest
  | .cons h (.cons h' (.cons _ _)), hrest => by
    cases h.node <;> cases h'.node <;> exact hrest

end Expr

open SymbolicAlgebra.Expr (Same)

/-! ### Tasks -/

namespace Task

/-- Tasks of the same kind about structurally equal expressions. -/
inductive Same : Task α → Task α → Prop
  | step {a b : Expr α} (h : Expr.Same a b) : Same (.step a) (.step b)
  | sum {as bs : List (Expr α)} (h : List.Forall₂ Expr.Same as bs) : Same (.sum as) (.sum bs)
  | product {as bs : List (Expr α)} (h : List.Forall₂ Expr.Same as bs) :
    Same (.product as) (.product bs)

theorem Same.size_eq {t u : Task α} (h : Same t u) : t.size = u.size := by
  cases h with
  | step h => exact h.size_eq
  | sum h => exact Expr.Same.sizeList_eq h
  | product h => exact Expr.Same.sizeList_eq h

theorem Same.toExpr [OrderedScalar α] {t u : Task α} (h : Same t u) :
    Expr.Same t.toExpr u.toExpr := by
  cases h with
  | step h => exact h
  | sum h => exact .sumOf h
  | product h => exact .productOf h

end Task

namespace Solver

/-- A solver that gives up on both of two equal tasks, or finds equal results. -/
def Congruent (solve : Solver α) : Prop :=
  ∀ ⦃t u : Task α⦄, Task.Same t u → Option.Rel Same (solve t) (solve u)

namespace Congruent

variable {solve : Solver α} (hs : Congruent solve)
include hs

theorem step {a b : Expr α} (h : Same a b) : Option.Rel Same (solve (.step a)) (solve (.step b)) :=
  hs (.step h)

theorem sum {as bs : List (Expr α)} (h : List.Forall₂ Same as bs) :
    Option.Rel Same (solve (.sum as)) (solve (.sum bs)) :=
  hs (.sum h)

theorem product {as bs : List (Expr α)} (h : List.Forall₂ Same as bs) :
    Option.Rel Same (solve (.product as)) (solve (.product bs)) :=
  hs (.product h)

theorem product_pair {a b a' b' : Expr α} (h : Same a a') (h' : Same b b') :
    Option.Rel Same (solve (.product [a, b])) (solve (.product [a', b'])) :=
  hs.product (.cons h (.cons h' .nil))

theorem steps : ∀ {as bs : List (Expr α)}, List.Forall₂ Same as bs →
    Option.Rel (List.Forall₂ Same) (solve.steps as) (solve.steps bs)
  | [], _, .nil => .some .nil
  | _ :: _, _, .cons h h' =>
    (hs.step h).bind fun _ _ h => (steps h').bind fun _ _ h' => .some (.cons h h')

end Congruent

end Solver

end SymbolicAlgebra
