import SymbolicAlgebra.Proofs.Doubled.Nested

/-! # Where the ways meet

What becomes of a fixed expression other than a sum when it is added to itself becomes of it, at
once or a step later, when it is doubled (`fixed_doubled`). A fixed sum of two terms is added to
itself and doubled term by term, so the ways of it meet at the second step (`pair_doubled`), if what
comes of twice either term has come to rest by then. -/

namespace SymbolicAlgebra

open SymbolicAlgebra.Expr (Same Fixed)

variable {α : Type} [Scalar α] [DoublingScalar α]

namespace Simplify

variable {t b b' : Expr α}

/-- **The sum of a fixed fraction with itself** is twice the fraction. -/
theorem sum_same_of_fraction {a d q A B : Expr α} (he : (Expr.fraction a d).Fixed)
    (hq : (Task.like (.fraction a d)).ComesTo q) (hA : (Task.step q).ComesTo A)
    (hB : (Task.product [.const Scalar.two, .fraction a d]).ComesTo B) : Same A B :=
  sum_same_of_plain_fraction he he.not_nested.1 he.not_nested.2 hq hA hB

/-- **The ways of a fixed expression** other than a sum and a number meet at once or a step later. -/
theorem fixed_doubled {e s p : Expr α} (he : e.Fixed) (hconst : e.isConst = false)
    (hsum : e.isSum = false) (hs : (Task.sum [e, e]).ComesTo s)
    (hp : (Task.product [.const Scalar.two, e]).ComesTo p) :
    Same s p ∨ ∀ p', (Task.step p).ComesTo p' → Same s p' := by
  obtain ⟨q, hq, hr⟩ := comesTo_like hconst hsum hs
  by_cases hfraction : ∃ c d, e = .fraction c d
  · obtain ⟨c, d, rfl⟩ := hfraction
    exact .inl (sum_same_of_fraction he hq hr hp)
  · exact sum_same_of_fixed he hconst hsum (Expr.isFraction_eq_false hfraction) hq hr hp

/-! ### Sums of two terms -/

/-- A term of a sum of two, of which twice comes to rest in time. -/
structure Paired (t : Expr α) : Prop where
  fixed : t.Fixed
  not_sum : t.isSum = false
  rests : Restless t → ∀ b b' b'', (Task.product [.const Scalar.two, t]).ComesTo b →
    (Task.step b).ComesTo b' → (Task.step b').ComesTo b'' → Same b'' b'

/-- A step takes what comes of twice a paired term, a step later, to the same. -/
theorem Paired.twice_later {b'' : Expr α} (ht : Paired t) (hconst : t.isConst = false)
    (hfraction : t.isFraction = false) (hb : (Task.product [.const Scalar.two, t]).ComesTo b)
    (hb' : (Task.step b).ComesTo b') (hb'' : (Task.step b').ComesTo b'') : Same b'' b' := by
  by_cases hrest : Restless t
  · exact ht.rests hrest b b' b'' hb hb' hb''
  · have hsame := twice_rests ht.fixed hconst ht.not_sum hfraction hrest hb hb'
    exact hb''.same hb' (.step hsame)

/-- **A step later** a term added to itself and twice the term are the same. -/
theorem Paired.meet {a a' : Expr α} (ht : Paired t) (ha : Added t a) (hb : Twice t b)
    (ha' : (Task.step a).ComesTo a') (hb' : (Task.step b).ComesTo b') : Same a' b' := by
  cases hb with
  | const hk =>
    cases ha with
    | const hk' =>
      obtain rfl := comesTo_const ha'
      obtain rfl := comesTo_const hb'
      exact .of_numbers (hk'.trans hk.symm)
    | term hconst => cases hconst
  | term hconst hb =>
    cases ha with
    | const => cases hconst
    | term _ hq hr =>
      by_cases hfraction : ∃ c d, t = .fraction c d
      · obtain ⟨c, d, rfl⟩ := hfraction
        exact ha'.same hb' (.step (sum_same_of_fraction ht.fixed hq hr hb))
      · have hfraction := Expr.isFraction_eq_false hfraction
        rcases sum_same_of_fixed ht.fixed hconst ht.not_sum hfraction hq hr hb with hsame | hlater
        · exact ha'.same hb' (.step hsame)
        · obtain ⟨b'', hb'', hsame⟩ := ha'.of_same (.step (hlater b' hb'))
          exact hsame.trans (ht.twice_later hconst hfraction hb hb' hb'')

/-- A step at a sum of two takes a step at the two terms. -/
theorem comesTo_step_sumOf [CommutativeScalar α] {s a c : Expr α}
    (hs : (Task.step (.sumOf [a, c])).ComesTo s) :
    ∃ a' c' s', (Task.step a).ComesTo a' ∧ (Task.step c).ComesTo c' ∧
      (Task.sum [a', c']).ComesTo s' ∧ Same s s' := by
  have hperm : (Expr.descending [a, c]).Perm _ := Expr.arrange_perm .sum [a, c]
  rw [Expr.sumOf] at hs
  obtain ⟨ts, hts, hs⟩ := comesTo_sum_of_step hs
  rcases List.perm_pair.mp hperm with hsorted | hsorted
  · rw [hsorted] at hts
    obtain ⟨a', c', rfl, ha, hc⟩ := forall₂_pair hts
    exact ⟨a', c', s, ha, hc, hs, .refl s⟩
  · rw [hsorted] at hts
    obtain ⟨c', a', rfl, hc, ha⟩ := forall₂_pair hts
    obtain ⟨s', hs', hsame⟩ := hs.sum_of_perm (.swap a' c' [])
    exact ⟨a', c', s', ha, hc, hs', hsame⟩

/-- **The ways of a fixed sum of two terms meet** at the second step. -/
theorem pair_doubled [CommutativeScalar α] {u s s' p p' : Expr α} (h : (Expr.sum [t, u]).Fixed)
    (ht : Paired t) (hu : Paired u)
    (hs : (Task.sum [.sum [t, u], .sum [t, u]]).ComesTo s) (hs' : (Task.step s).ComesTo s')
    (hp : (Task.product [.const Scalar.two, .sum [t, u]]).ComesTo p)
    (hp' : (Task.step p).ComesTo p') : Same s' p' := by
  obtain ⟨a, c, ha, hc, hsame⟩ := added_pair h hs
  obtain ⟨b, d, hb, hd, hsame'⟩ := twice_pair h hp
  obtain ⟨s₁, hs₁, hss₁⟩ := hs'.of_same (.step hsame)
  obtain ⟨p₁, hp₁, hpp₁⟩ := hp'.of_same (.step hsame')
  obtain ⟨a', c', s₂, ha', hc', hs₂, hss₂⟩ := comesTo_step_sumOf hs₁
  obtain ⟨b', d', p₂, hb', hd', hp₂, hpp₂⟩ := comesTo_step_sumOf hp₁
  have hmeet := hs₂.same hp₂
    (.sum (.cons (ht.meet ha hb ha' hb') (.cons (hu.meet hc hd hc' hd') .nil)))
  exact ((hss₁.trans hss₂).trans hmeet).trans (hpp₁.trans hpp₂).symm

end Simplify

end SymbolicAlgebra
