import Mathlib.Data.List.Basic
import SymbolicAlgebra.Proofs.Double.Order
import SymbolicAlgebra.Proofs.Order.Sort
import SymbolicAlgebra.Simplify.Solve

/-! # Classes

Like terms and like bases are collected by going through a list once: an entry joins the first group
that takes it, or starts a group of its own. What comes of this are the classes of the list
(`foldl_eq_classes`): the first entry with all that are alike to it, and then the classes of the
others. If being alike is an equivalence, then every entry is in exactly one class, a class holds
all entries that are alike to its first, and the classes stand in the order of their first entries
(`isClasses_classes`). -/

namespace SymbolicAlgebra.Simplify

open SymbolicAlgebra.Expr (Same)

section General

variable {β : Type}

/-- The entries that are not alike to one. -/
def unlike (alike : β → β → Bool) (b : β) (bs : List β) : List β := bs.filter fun c => !alike b c

theorem length_unlike_lt (alike : β → β → Bool) (b : β) (bs : List β) :
    (unlike alike b bs).length < (b :: bs).length :=
  Nat.lt_succ_of_le (List.length_filter_le _ _)

/-- The classes of a list: the first entry with those alike to it, and the classes of the others. -/
def classes (alike : β → β → Bool) : List β → List (β × List β)
  | [] => []
  | b :: bs => (b, bs.filter (alike b)) :: classes alike (unlike alike b bs)
termination_by bs => bs.length
decreasing_by exact length_unlike_lt alike b bs

theorem classes_nil (alike : β → β → Bool) : classes alike [] = [] := by
  rw [classes.eq_def]

theorem classes_cons (alike : β → β → Bool) (b : β) (bs : List β) : classes alike (b :: bs) =
    (b, bs.filter (alike b)) :: classes alike (unlike alike b bs) := by
  rw [classes.eq_def]

/-- There are at most as many classes as entries, and if there are as many, then no two entries are
alike. -/
theorem length_classes (alike : β → β → Bool) : ∀ bs : List β,
    (classes alike bs).length ≤ bs.length ∧
      (bs.length ≤ (classes alike bs).length → bs.Pairwise fun b c => alike b c = false)
  | [] => by
    rw [classes_nil]
    exact ⟨Nat.le_refl _, fun _ => .nil⟩
  | b :: bs => by
    obtain ⟨hle, hpairs⟩ := length_classes alike (unlike alike b bs)
    have hunlike : (unlike alike b bs).length ≤ bs.length := List.length_filter_le _ _
    rw [classes_cons, List.length_cons, List.length_cons]
    refine ⟨by omega, fun hlength => ?_⟩
    have hall : ∀ c ∈ bs, (!alike b c) = true :=
      List.length_filter_eq_length_iff.mp (show (unlike alike b bs).length = bs.length by omega)
    have hpairs := hpairs (by omega)
    rw [unlike, List.filter_eq_self.mpr hall] at hpairs
    exact .cons (fun c hc => by simpa using hall c hc) hpairs
termination_by bs => bs.length
decreasing_by exact length_unlike_lt alike b bs

/-- **The classes of a list**: their first entries are the list without those that are alike to an
earlier one, no two classes are alike, each class holds the entries that are alike to its first, in
the order of the list, and all classes together hold each entry once. -/
structure IsClasses (alike : β → β → Bool) (bs : List β) (cs : List (β × List β)) : Prop where
  firsts : cs.map Prod.fst = bs.eraseDupsBy fun b a => alike a b
  apart : cs.Pairwise fun c d => alike c.1 d.1 = false
  members : ∀ c ∈ cs, c.1 :: c.2 = bs.filter (alike c.1)
  perm : (cs.flatMap fun c => c.1 :: c.2).Perm bs

/-- A list has its classes in one way only. -/
theorem IsClasses.eq_map {alike : β → β → Bool} {bs : List β} {cs : List (β × List β)}
    (h : IsClasses alike bs cs) :
    cs = (bs.eraseDupsBy fun b a => alike a b).map fun b => (b, (bs.filter (alike b)).tail) := by
  rw [← h.firsts, List.map_map]
  refine (List.map_id cs).symm.trans (List.map_congr_left fun c hc => ?_)
  rw [Function.comp_apply, ← h.members c hc]
  rfl

/-- **Collecting**: an entry joins the first group that takes it, or starts one at the end, and a
group that it joins takes the same entries as before. -/
structure Collecting {γ : Type} (add : List γ → β → List γ) (start : β → γ) (join : γ → β → γ)
    (takes : γ → β → Bool) : Prop where
  add_nil (b : β) : add [] b = [start b]
  add_cons (g : γ) (gs : List γ) (b : β) :
    add (g :: gs) b = if takes g b then join g b :: gs else g :: add gs b
  takes_join (g : γ) (b : β) : takes (join g b) = takes g

namespace Collecting

variable {γ : Type} {add : List γ → β → List γ} {start : β → γ} {join : γ → β → γ}
  {takes : γ → β → Bool}

/-- The first group takes in all that it takes, and the others are collected as if it were not
there. -/
theorem foldl_cons (h : Collecting add start join takes) (bs : List β) : ∀ (g : γ) (gs : List γ),
    bs.foldl add (g :: gs) =
      (bs.filter (takes g)).foldl join g :: (bs.filter fun b => !takes g b).foldl add gs := by
  induction bs with
  | nil => exact fun _ _ => rfl
  | cons b bs ih =>
    intro g gs
    rw [List.foldl_cons, h.add_cons]
    rcases htakes : takes g b
    · rw [if_neg (by simp), ih, List.filter_cons_of_neg (by simp [htakes]),
        List.filter_cons_of_pos (by simp [htakes]), List.foldl_cons]
    · rw [if_pos rfl, ih, h.takes_join, List.filter_cons_of_pos htakes,
        List.filter_cons_of_neg (by simp [htakes]), List.foldl_cons]

/-- **Collecting gives the classes.** -/
theorem foldl_eq_classes (h : Collecting add start join takes) : ∀ bs : List β, bs.foldl add [] =
    (classes (fun b => takes (start b)) bs).map fun c => c.2.foldl join (start c.1)
  | [] => by
    rw [classes_nil]
    rfl
  | b :: bs => by
    rw [List.foldl_cons, h.add_nil, h.foldl_cons, classes_cons, List.map_cons,
      ← h.foldl_eq_classes (unlike (fun b => takes (start b)) b bs)]
    rfl
termination_by bs => bs.length
decreasing_by exact length_unlike_lt _ b bs

end Collecting

variable {alike : β → β → Bool}

/-- **The classes are the classes**, if being alike is an equivalence: what is not alike to the
first entry is alike to nothing in its class, so leaving that class out changes no other class. -/
theorem isClasses_classes (halike : Equivalence fun a b => alike a b = true) :
    ∀ bs : List β, IsClasses alike bs (classes alike bs)
  | [] => by
    rw [classes_nil]
    exact ⟨rfl, .nil, by simp, .refl _⟩
  | b :: bs => by
    obtain ⟨hfirsts, hapart, hmembers, hperm⟩ :=
      isClasses_classes halike (unlike alike b bs)
    have hother (c : β × List β) (hc : c ∈ classes alike (unlike alike b bs)) :
        alike b c.1 = false := by
      have hmem : c.1 ∈ unlike alike b bs :=
        hperm.mem_iff.mp (List.mem_flatMap.mpr ⟨c, hc, List.mem_cons_self⟩)
      simpa using (List.mem_filter.mp hmem).2
    rw [classes_cons]
    refine ⟨?_, .cons hother hapart, List.forall_mem_cons.mpr ⟨?_, fun c hc => ?_⟩, ?_⟩
    · rw [List.map_cons, hfirsts, List.eraseDupsBy_cons, unlike]
      simp
    · exact (List.filter_cons_of_pos (halike.refl b)).symm
    · have hb : alike c.1 b = false := Bool.eq_false_iff.mpr fun h => by
        simpa [hother c hc] using halike.symm h
      rw [hmembers c hc, unlike, List.filter_filter, List.filter_cons_of_neg (by simp [hb])]
      refine List.filter_congr fun d _ => ?_
      rcases hd : alike c.1 d
      · rfl
      · have hbd : alike b d = false := Bool.eq_false_iff.mpr fun h => by
          simpa [hother c hc] using halike.trans h (halike.symm hd)
        simp [hbd]
    · rw [List.flatMap_cons, List.cons_append]
      exact .cons b (.trans (.append_left _ hperm) (List.filter_append_perm (alike b) bs))
termination_by bs => bs.length
decreasing_by exact length_unlike_lt alike b bs

end General

variable {α : Type} [Scalar α]

/-! ### Like terms -/

/-- Terms are alike if they have the same factors, apart from their coefficients. -/
def alikeTerms (t u : Expr α) : Bool :=
  Expr.beqList (splitCoefficient t).2 (splitCoefficient u).2

theorem equivalence_alikeTerms [OrderedScalar α] :
    Equivalence fun t u : Expr α => alikeTerms t u = true := by
  have hiff (t u : Expr α) : alikeTerms t u = true ↔
      Same (.sum (splitCoefficient t).2) (.sum (splitCoefficient u).2) := by
    rw [alikeTerms, Same, Expr.beq, beq_self_eq_true, Bool.true_and]
  simp only [hiff]
  exact ⟨fun _ => .refl _, .symm, .trans⟩

namespace LikeTerms

/-- A term joins a group: its coefficient is added, and the factors stay. -/
def join (g : LikeTerms α) (t : Expr α) : LikeTerms α :=
  ⟨Scalar.add g.coefficient (splitCoefficient t).1, g.factors, true⟩

theorem collecting : Collecting
    (fun groups t => add (splitCoefficient t).1 (splitCoefficient t).2 groups)
    (fun t : Expr α => ⟨(splitCoefficient t).1, (splitCoefficient t).2, false⟩) join
    fun g t => Expr.beqList g.factors (splitCoefficient t).2 :=
  ⟨fun _ => rfl, fun _ _ _ => rfl, fun _ _ => rfl⟩

/-- The group of a class of terms: its coefficient is the sum of those of the terms, from left to
right, and its factors are those of the first. -/
def ofClass (c : Expr α × List (Expr α)) : LikeTerms α where
  coefficient := (c.2.map fun u => (splitCoefficient u).1).foldl Scalar.add (splitCoefficient c.1).1
  factors := (splitCoefficient c.1).2
  merged := !c.2.isEmpty

theorem foldl_join (ts : List (Expr α)) : ∀ g : LikeTerms α, ts.foldl join g =
    ⟨(ts.map fun t => (splitCoefficient t).1).foldl Scalar.add g.coefficient, g.factors,
      g.merged || !ts.isEmpty⟩ := by
  induction ts with
  | nil => exact fun g => by simp
  | cons t ts ih => exact fun g => by simp [ih, join]

/-- **The groups of like terms are the classes.** -/
theorem collect_eq_classes (ts : List (Expr α)) :
    collect ts = (classes alikeTerms ts).map ofClass := by
  rw [collect, collecting.foldl_eq_classes]
  refine List.map_congr_left fun c _ => ?_
  rw [foldl_join, Bool.false_or]
  rfl

/-- There are at most as many groups of like terms as terms, and if there are as many, then no two
terms are alike. -/
theorem length_collect (ts : List (Expr α)) : (collect ts).length ≤ ts.length ∧
    (ts.length ≤ (collect ts).length → ts.Pairwise fun t u => alikeTerms t u = false) := by
  rw [collect_eq_classes, List.length_map]
  exact length_classes alikeTerms ts

omit [Scalar α] in
theorem toTerms_eq_mapM (solve : Solver α) (gs : List (LikeTerms α)) :
    toTerms solve gs = gs.mapM (toTerm solve) := by
  induction gs with
  | nil => rfl
  | cons g gs ih =>
    rw [toTerms, ih, List.mapM_cons]
    rfl

end LikeTerms

/-! ### Like bases -/

/-- Powers are alike if they have the same base. -/
def alikePowers (p q : Expr α × Expr α) : Bool := p.1 == q.1

theorem equivalence_alikePowers [OrderedScalar α] :
    Equivalence fun p q : Expr α × Expr α => alikePowers p q = true :=
  ⟨fun p => Same.refl p.1, fun h => Same.symm h, fun h h' => Same.trans h h'⟩

namespace LikeBases

/-- A power joins a group: its exponent comes last, and the base stays. -/
def join (g : LikeBases α) (p : Expr α × Expr α) : LikeBases α := ⟨g.base, g.exponents ++ [p.2]⟩

theorem collecting : Collecting (fun groups p => add p.1 p.2 groups)
    (fun p : Expr α × Expr α => ⟨p.1, [p.2]⟩) join fun g p => g.base == p.1 :=
  ⟨fun _ => rfl, fun _ _ _ => rfl, fun _ _ => rfl⟩

omit [Scalar α] in
theorem foldl_join (ps : List (Expr α × Expr α)) : ∀ g : LikeBases α,
    ps.foldl join g = ⟨g.base, g.exponents ++ ps.map Prod.snd⟩ := by
  induction ps with
  | nil => exact fun g => by simp
  | cons p ps ih => exact fun g => by simp [ih, join]

/-- **The groups of like bases are the classes.** -/
theorem collect_eq_classes (ps : List (Expr α × Expr α)) : collect ps =
    (classes alikePowers ps).map fun c => ⟨c.1.1, (c.1 :: c.2).map Prod.snd⟩ := by
  rw [collect, collecting.foldl_eq_classes]
  exact List.map_congr_left fun c _ => foldl_join _ _

/-- There are at most as many groups of like bases as powers, and if there are as many, then no two
powers have the same base. -/
theorem length_collect (ps : List (Expr α × Expr α)) : (collect ps).length ≤ ps.length ∧
    (ps.length ≤ (collect ps).length → ps.Pairwise fun p q => alikePowers p q = false) := by
  rw [collect_eq_classes, List.length_map]
  exact length_classes alikePowers ps

/-- **Every power is in a group** of its base. -/
theorem exists_collect [OrderedScalar α] {ps : List (Expr α × Expr α)} {p : Expr α × Expr α}
    (hp : p ∈ ps) : ∃ g ∈ collect ps, Expr.Same g.base p.1 ∧ p.2 ∈ g.exponents := by
  have hclasses := isClasses_classes equivalence_alikePowers ps
  obtain ⟨c, hc, hmem⟩ := List.mem_flatMap.mp (hclasses.perm.mem_iff.mpr hp)
  rw [collect_eq_classes]
  refine ⟨_, List.mem_map_of_mem hc, ?_, List.mem_map_of_mem hmem⟩
  rw [hclasses.members c hc] at hmem
  exact (List.mem_filter.mp hmem).2

omit [Scalar α] in
theorem toPowers_eq_mapM (solve : Solver α) (gs : List (LikeBases α)) :
    toPowers solve gs =
      gs.mapM fun g => (solve (.sum g.exponents)).map fun exponent => .power g.base exponent := by
  induction gs with
  | nil => rfl
  | cons g gs ih =>
    rw [toPowers, ih, List.mapM_cons]
    cases solve (.sum g.exponents) <;> rfl

end LikeBases

/-! ### What is collected -/

/-- **Collecting neither loses nor duplicates nor mixes.** For every list of terms, the groups are
the classes of terms with structurally equal factors, in the order of their first members; the
coefficient of a group is the sum, from left to right, of the coefficients of the terms of its
class. A term that is alone in its class comes out as the product of its coefficient and its
factors, and of the others the sum of the coefficients is multiplied with the factors. For every
list of powers, what comes out is a power for each class of structurally equal bases, with the sum
of the exponents of the class in their order as its exponent. -/
theorem like_parts_collected [OrderedScalar α] (solve : Solver α) :
    (∀ ts : List (Expr α), ∃ cs, IsClasses alikeTerms ts cs ∧
      LikeTerms.collect ts = cs.map LikeTerms.ofClass ∧
      combineLikeTerms solve ts = cs.mapM fun c =>
        if c.2.isEmpty then
          some (.product (.const (splitCoefficient c.1).1 :: (splitCoefficient c.1).2))
        else
          solve (.product [.const (LikeTerms.ofClass c).coefficient,
            .product (splitCoefficient c.1).2])) ∧
    ∀ ps : List (Expr α × Expr α), ∃ cs, IsClasses alikePowers ps cs ∧
      combineLikeBases solve ps = cs.mapM fun c =>
        (solve (.sum ((c.1 :: c.2).map Prod.snd))).map fun exponent => .power c.1.1 exponent := by
  constructor
  · intro ts
    refine ⟨_, isClasses_classes equivalence_alikeTerms ts, LikeTerms.collect_eq_classes ts, ?_⟩
    rw [combineLikeTerms, LikeTerms.toTerms_eq_mapM, LikeTerms.collect_eq_classes, List.mapM_map]
    refine congrArg (List.mapM · _) (funext fun c => ?_)
    rcases c with ⟨t, _ | ⟨u, us⟩⟩ <;> rfl
  · intro ps
    refine ⟨_, isClasses_classes equivalence_alikePowers ps, ?_⟩
    rw [combineLikeBases, LikeBases.toPowers_eq_mapM, LikeBases.collect_eq_classes, List.mapM_map]
    rfl

/-- Of `2x`, `y` and `3x` the first and the last are alike, and of the powers with the bases `x`,
`y` and `x` too. -/
theorem like_parts_collected_line :
    let x : Expr Float := .var 'x'
    let y : Expr Float := .var 'y'
    let ts : List (Expr Float) := [.product [.const 2, x], y, .product [.const 3, x]]
    let ps : List (Expr Float × Expr Float) := [(x, .const 1), (y, .const 2), (x, y)]
    (combineLikeTerms (solve 4) ts == some [.product [.const 5, x], .product [.const 1, y]]) = true ∧
      (combineLikeBases (solve 4) ps ==
        some [.power x (.sum [y, .const 1]), .power y (.const 2)]) = true := by
  intro x y ts ps
  obtain ⟨hterms, hpowers⟩ := like_parts_collected (solve 4 : Solver Float)
  constructor
  · obtain ⟨cs, hcs, -, hcombine⟩ := hterms ts
    rw [hcombine, hcs.eq_map]
    decide +kernel
  · obtain ⟨cs, hcs, hcombine⟩ := hpowers ps
    rw [hcombine, hcs.eq_map]
    decide +kernel

end SymbolicAlgebra.Simplify
