import Plonkish.Proofs.Equality
import Plonkish.Proofs.Meaning

/-!
# Proofs — the algebra of terms

Terms are multiplied, scaled and negated like the products that they stand for.  They are compared
by their words, their lists of variables and the digests that they keep, so each operation has to
bring its result to normal form again; some make the term anew, and some have a short-circuit for
zero.

`Hashed.Term.Denotes t a l` says what a term stands for: its coefficient is a word of `a`, and its
variables are those of `l` up to order, unless `a` is zero.

* `Denotes.mul`, `Denotes.scale` and `Denotes.neg`: the operations do to terms what they do to
  products. There are no zero divisors, so a product that is not zero has no factor that lost its
  variables.
* `Denotes.same`: terms over proper words that stand for the same product are the same.
* `Denotes.lookup_multiplicities_mul`: the multiplicities of a product are the sums of those of its
  factors.

`Hashed.Term.mul_algebra` puts these together for all terms that have been built.  Over BabyBear, a
word that is not reduced can be read, and is kept; a product with it is reduced, so over such words
a law need not hold where one side is a product and the other is not.
-/

namespace Plonkish

variable {k : BaseField}

/-! ### Words -/

namespace Word

variable {w : Word k}

/-- A proper word is zero exactly if it stands for zero. -/
theorem beq_zero_iff (h : w.Proper) : w == 0 ↔ w.felt = 0 := by
  rw [beq_iff_felt_eq h closed_proper.zero, felt_zero]

/-- A word that does not stand for zero is not zero, whether it is proper or not. -/
theorem beq_zero_of_felt_ne (h : w.felt ≠ 0) : (w == 0) = false :=
  Bool.eq_false_iff.mpr fun hw => h ((felt_eq_of_beq hw).trans felt_zero)

end Word

namespace Hashed.Term

variable {D : Digesting k} {t u v : Term k} {a b : Felt k} {l m : List Variable}

/-! ### What a term stands for -/

/-- The term is the normal form of `a` times the product of the variables of `l`. -/
structure Denotes (D : Digesting k) (t : Term k) (a : Felt k) (l : List Variable) : Prop where
  /-- The term is in normal form. -/
  fresh : t.Fresh D
  /-- The coefficient is a word of `a`. -/
  felt_eq : t.coeff.felt = a
  /-- The variables are kept, unless the product is zero. -/
  vars_perm : a ≠ 0 → t.vars.Perm l

theorem Fresh.denotes (h : t.Fresh D) : t.Denotes D t.coeff.felt t.vars :=
  ⟨h, rfl, fun _ => .refl _⟩

theorem denotes_new (D : Digesting k) (c : Word k) (l : List Variable) :
    (new D c l).Denotes D c.felt l where
  fresh := (Plonkish.Term.of c l).fresh_hashed D
  felt_eq := rfl
  vars_perm hne := by
    show (Plonkish.Term.normalVars c l).Perm l
    rw [Plonkish.Term.normalVars, Word.beq_zero_of_felt_ne hne]
    exact Variable.sort_perm l

namespace Denotes

/-- A term that is made from the coefficient and the variables of others. -/
theorem new {c : Word k} (hc : c.felt = a) (hl : a ≠ 0 → l.Perm m) : (new D c l).Denotes D a m :=
  have h := denotes_new D c l
  ⟨h.fresh, hc, fun hne => (h.vars_perm (hc ▸ hne)).trans (hl hne)⟩

/-- **A product** stands for the product of its factors, whether it is taken or short-circuited. -/
theorem mul (ht : t.Denotes D a l) (hu : u.Denotes D b m) :
    (t.mul D u).Denotes D (a * b) (l ++ m) := by
  unfold Term.mul
  split
  · next h =>
      have hab : a * b = 0 := by
        rcases (Bool.or_eq_true _ _).mp h with hzero | hzero
        · rw [← ht.felt_eq, Word.felt_eq_of_beq hzero, Word.felt_zero, zero_mul]
        · rw [← hu.felt_eq, Word.felt_eq_of_beq hzero, Word.felt_zero, mul_zero]
      exact .new (Word.felt_zero.trans hab.symm) fun hne => absurd hab hne
  · refine .new (by rw [Word.felt_mul, ht.felt_eq, hu.felt_eq]) fun hne => ?_
    obtain ⟨ha, hb⟩ := mul_ne_zero_iff.mp hne
    exact (ht.vars_perm ha).append (hu.vars_perm hb)

theorem scale (ht : t.Denotes D a l) (c : Word k) : (t.scale D c).Denotes D (a * c.felt) l :=
  .new (by rw [Word.felt_mul, ht.felt_eq]) fun hne => ht.vars_perm (left_ne_zero_of_mul hne)

/-- The word of a coefficient is negated by subtraction from the order, so it has to be proper. -/
theorem neg (ht : t.Denotes D a l) (hproper : t.coeff.Proper) : (t.neg D).Denotes D (-a) l :=
  .new (by rw [Word.felt_neg hproper, ht.felt_eq]) fun hne => ht.vars_perm (neg_ne_zero.mp hne)

/-- **Terms over proper words** that stand for the same product are the same, and so are their
digests. -/
theorem same (ht : t.Denotes D a l) (hu : u.Denotes D b m) (hpt : t.coeff.Proper)
    (hpu : u.coeff.Proper) (hab : a = b) (hlm : l.Perm m) : t.same u := by
  obtain rfl := hab
  have hcoeff : t.coeff == u.coeff :=
    (Word.beq_iff_felt_eq hpt hpu).mpr (ht.felt_eq.trans hu.felt_eq.symm)
  have hvars : t.vars.Perm u.vars := by
    by_cases ha : a = 0
    · rw [ht.fresh.vars_eq_nil ((Word.beq_zero_iff hpt).mpr (ht.felt_eq.trans ha)),
        hu.fresh.vars_eq_nil ((Word.beq_zero_iff hpu).mpr (hu.felt_eq.trans ha))]
    · exact (ht.vars_perm ha).trans (hlm.trans (hu.vars_perm ha).symm)
  simp only [Term.same, Bool.and_eq_true, beq_iff_eq]
  exact ⟨Expr.term_digest_eq ht.fresh hu.fresh hcoeff hvars, hcoeff,
    Expr.vars_eq_of_perm ht.fresh hu.fresh hvars⟩

end Denotes

/-! ### Multiplicities -/

theorem lookup_multiplicities (t : Term k) (x : Variable) :
    t.multiplicities.lookup x = if x ∈ t.vars then some (t.vars.count x) else none := by
  split
  · next h => exact List.lookup_graph _ (Variable.mem_distinct.mpr h)
  · next h =>
      refine List.lookup_eq_none_iff.mpr fun p hp => ?_
      obtain ⟨v, hv, rfl⟩ := List.mem_map.mp hp
      have hne : x ≠ v := fun hxv => h (hxv ▸ Variable.mem_distinct.mp hv)
      exact bne_iff_ne.mpr hne

/-- **The multiplicities of a product** that is not zero are the sums of those of its factors,
variable by variable, and its degree is the sum of theirs. -/
theorem Denotes.lookup_multiplicities_mul (ht : t.Denotes D a t.vars) (hu : u.Denotes D b u.vars)
    (ha : a ≠ 0) (hb : b ≠ 0) :
    (t.mul D u).degree = t.degree + u.degree ∧
    ∀ x, (t.mul D u).multiplicities.lookup x =
      Option.merge (· + ·) (t.multiplicities.lookup x) (u.multiplicities.lookup x) := by
  have hperm := (ht.mul hu).vars_perm (mul_ne_zero ha hb)
  refine ⟨hperm.length_eq.trans List.length_append, fun x => ?_⟩
  simp only [lookup_multiplicities, hperm.mem_iff, hperm.count_eq, List.mem_append,
    List.count_append]
  -- A variable that one factor does not have counts as often as it does in the other.
  by_cases hxt : x ∈ t.vars <;> by_cases hxu : x ∈ u.vars
  · simp [hxt, hxu]
  · simp [hxt, hxu, List.count_eq_zero_of_not_mem hxu]
  · simp [hxt, hxu, List.count_eq_zero_of_not_mem hxt]
  · simp [hxt, hxu]

/-! ### Laws -/

/-- Multiplying in the other order multiplies the same words, so this holds of any words. -/
theorem mul_same_comm (D : Digesting k) (t u : Term k) : (t.mul D u).same (u.mul D t) := by
  unfold mul
  rw [Bool.or_comm u.isZero, Word.mul_comm u.coeff]
  have hvars : Plonkish.Term.normalVars (t.coeff * u.coeff) (t.vars ++ u.vars) =
      Plonkish.Term.normalVars (t.coeff * u.coeff) (u.vars ++ t.vars) := by
    rw [Plonkish.Term.normalVars, Plonkish.Term.normalVars,
      Variable.sort_eq_of_perm List.perm_append_comm]
  split
  · simp [same]
  · simp [same, new, hvars]

theorem mul_zero_eq (D : Digesting k) (t : Term k) : t.mul D (zero D) = zero D := by
  have hzero : (zero D).isZero = true := BEq.rfl (a := (0 : Word k))
  rw [mul, hzero, Bool.or_true, if_pos rfl]

theorem proper_mul (D : Digesting k) (ht : t.coeff.Proper) (hu : u.coeff.Proper) :
    (t.mul D u).coeff.Proper := by
  unfold mul
  split
  · exact Word.closed_proper.zero
  · exact Word.closed_proper.mul ht hu

/-- The laws of multiplication, scaling and negation. -/
structure Laws (D : Digesting k) (t u v : Term k) (c d : Word k) : Prop where
  /-- Products may be bracketed in any way. -/
  mul_assoc : ((t.mul D u).mul D v).same (t.mul D (u.mul D v))
  /-- The constant one is neutral. -/
  one_mul : ((constant D 1).mul D t).same t
  /-- A sign may be put before a product. -/
  neg_mul : ((t.neg D).mul D u).same ((t.mul D u).neg D)
  /-- Two signs cancel. -/
  neg_neg : ((t.neg D).neg D).same t
  /-- Constants may be multiplied first. -/
  scale_mul : (t.scale D (c * d)).same ((t.scale D c).scale D d)

theorem laws {c d : Word k} (ht : t.Fresh D) (hu : u.Fresh D) (hv : v.Fresh D)
    (hpt : t.coeff.Proper) (hpu : u.coeff.Proper) (hpv : v.coeff.Proper) (hpc : c.Proper)
    (hpd : d.Proper) : Laws D t u v c d where
  mul_assoc :=
    ((ht.denotes.mul hu.denotes).mul hv.denotes).same (ht.denotes.mul (hu.denotes.mul hv.denotes))
      (proper_mul D (proper_mul D hpt hpu) hpv) (proper_mul D hpt (proper_mul D hpu hpv))
      (mul_assoc _ _ _) (.of_eq (List.append_assoc _ _ _))
  one_mul := by
    refine ((denotes_new D 1 []).mul ht.denotes).same ht.denotes
      (proper_mul D Word.closed_proper.one hpt) hpt ?_ (.refl _)
    rw [Word.felt_one, one_mul]
  neg_mul :=
    ((ht.denotes.neg hpt).mul hu.denotes).same
      ((ht.denotes.mul hu.denotes).neg (proper_mul D hpt hpu))
      (proper_mul D (Word.proper_neg hpt) hpu) (Word.proper_neg (proper_mul D hpt hpu))
      (neg_mul _ _) (.refl _)
  neg_neg :=
    have hneg := ht.denotes.neg hpt
    (hneg.neg (Word.proper_neg hpt)).same ht.denotes (Word.proper_neg (Word.proper_neg hpt)) hpt
      (neg_neg _) (.refl _)
  scale_mul := by
    refine (ht.denotes.scale (c * d)).same ((ht.denotes.scale c).scale d)
      (Word.closed_proper.mul hpt (Word.closed_proper.mul hpc hpd))
      (Word.closed_proper.mul (Word.closed_proper.mul hpt hpc) hpd) ?_ (.refl _)
    rw [Word.felt_mul, mul_assoc]

/-- What the operations make of two terms and a constant. -/
def results (D : Digesting k) (t u : Term k) (c : Word k) : List (Term k) :=
  [t.mul D u, t.scale D c, t.neg D, constant D c, zero D]

/-- What the operations make of terms that have been built has been built. -/
theorem made_of_mem_results {source : Word k → Prop} {r : Term k} {c : Word k}
    (ht : (Expr.ofTerm t).Made D source) (hu : (Expr.ofTerm u).Made D source) (hc : source c)
    (hr : r ∈ results D t u c) : (Expr.ofTerm r).Made D source := by
  simp only [results, List.mem_cons, List.not_mem_nil, or_false] at hr
  rcases hr with rfl | rfl | rfl | rfl | rfl
  · exact .termMul ht hu
  · exact .termScale ht hc
  · exact .termNeg ht
  · exact .new hc []
  · exact .zero

/-- **The algebra of terms**, however they have been built and however digests are formed.  Products
are the same in either order, and a product with zero is zero.  A product of terms that do not stand
for zero has the degree and the multiplicities of both.  What the operations make has its variables
in order, and none if its coefficient is the word zero.  If the coefficients the terms are built
from are proper words, as all of them are over Goldilocks, the other laws hold as well, and what
stands for zero has no variables. -/
theorem mul_algebra {source : Word k → Prop} {c d : Word k} (ht : (Expr.ofTerm t).Made D source)
    (hu : (Expr.ofTerm u).Made D source) (hv : (Expr.ofTerm v).Made D source) (hc : source c)
    (hd : source d) :
    ((t.mul D u).same (u.mul D t) ∧ (t.mul D (zero D)).same (zero D)) ∧
    (t.coeff.felt ≠ 0 → u.coeff.felt ≠ 0 →
      (t.mul D u).degree = t.degree + u.degree ∧
      ∀ x, (t.mul D u).multiplicities.lookup x =
        Option.merge (· + ·) (t.multiplicities.lookup x) (u.multiplicities.lookup x)) ∧
    (∀ r ∈ results D t u c, r.vars.Pairwise (· ≤ ·) ∧ (r.coeff == 0 → r.vars = [])) ∧
    ((∀ w, source w → w.Proper) →
      Laws D t u v c d ∧ ∀ r ∈ results D t u c, r.coeff.felt = 0 → r.vars = []) := by
  refine ⟨⟨mul_same_comm D t u, ?_⟩, ?_, fun r hr => ?_, fun hproper => ⟨?_, fun r hr hzero => ?_⟩⟩
  · rw [mul_zero_eq]
    simp [same]
  · exact ht.fresh.1.denotes.lookup_multiplicities_mul hu.fresh.1.denotes
  · have hfresh := (made_of_mem_results ht hu hc hr).fresh.1
    exact ⟨hfresh.sorted, hfresh.vars_eq_nil⟩
  · have hcoeff {t : Term k} (ht : (Expr.ofTerm t).Made D source) : t.coeff.Proper :=
      ht.coeffs Word.closed_proper hproper
    exact laws ht.fresh.1 hu.fresh.1 hv.fresh.1 (hcoeff ht) (hcoeff hu) (hcoeff hv) (hproper c hc)
      (hproper d hd)
  · have hmade := made_of_mem_results ht hu hc hr
    have hcoeff : r.coeff.Proper := hmade.coeffs Word.closed_proper hproper
    exact hmade.fresh.1.vars_eq_nil ((Word.beq_zero_iff hcoeff).mpr hzero)

/-- Three terms over proper words, two of them over the same variable.  But the order of BabyBear,
which is zero in the field, is not the word zero: the term that is read from it keeps its variable,
and is not the product of itself with one. -/
theorem mul_algebra_unreduced :
    (let D := Digesting.standard .babyBear
     let x : Variable := .relativeTo .witness 0 0
     let y : Variable := .relativeTo .witness 1 (-1)
     let t := new D (Felt.word 3) [y, x]
     let u := new D (Felt.word 2) [x]
     Laws D t u (t.neg D) (Felt.word 5) (Felt.word 7) ∧
       (t.mul D u).multiplicities.lookup x =
         Option.merge (· + ·) (t.multiplicities.lookup x) (u.multiplicities.lookup x)) ∧
    ∃ t, decode (.standard .babyBear) [1, 0, 0, 120, 1, 0, 0, 0, 0, 0, 0, 0, 0, 0, 0, 0, 0,
      0, 0, 0, 0,
        0, 0, 0, 1] = .ok t ∧ t.coeff.felt = 0 ∧ t.vars = [.relativeTo .witness 0 0] ∧
      ¬ ((constant (.standard _) 1).mul (.standard _) t).same t := by
  constructor
  · intro D x y t u
    have ht : (Expr.ofTerm t).Made D Word.Proper := .new (Word.proper_word 3) [y, x]
    have hu : (Expr.ofTerm u).Made D Word.Proper := .new (Word.proper_word 2) [x]
    obtain ⟨-, hproduct, -, hlaws⟩ :=
      mul_algebra ht hu (.termNeg ht) (Word.proper_word 5) (Word.proper_word 7)
    exact ⟨(hlaws fun _ => id).1, (hproduct (by decide) (by decide)).2 x⟩
  · refine ⟨new _ (.ofBits BaseField.babyBear.order) [.relativeTo .witness 0 0], rfl, rfl, ?_, ?_⟩
    · exact Variable.sort_of_pairwise (List.pairwise_singleton _ _)
    · intro hsame
      have hcoeff := (Bool.and_eq_true_iff.mp (Bool.and_eq_true_iff.mp hsame).2).1
      exact absurd hcoeff (by decide)

end Hashed.Term

end Plonkish
