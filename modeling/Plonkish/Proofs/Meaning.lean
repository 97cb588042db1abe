import Plonkish.Proofs.Values

/-!
# Proofs — what operators mean

Operands that evaluate to elements of the field (`Expr.Means`) are taken by the operators to what
the operations of the field make of these elements, under every valuation of the variables.

* Terms are brought to normal form, which keeps the product (`value_term_mul`, `value_term_scale`,
  `value_term_neg`).
* Expressions are left out of sums and products if they are empty, and then they mean zero
  (`Expr.Means.add`, `Expr.Means.mul`).

`Expr.means_operators` puts these together for all forms of operands.  Expressions over proper words
mean their values (`Expr.Proper.means`); another word need not be the word of an element.  The words
of coefficients are negated by subtraction from the order, which gives the word of the opposite only
for proper words (`Word.felt_neg`).
-/

namespace Plonkish

variable {k : BaseField}

/-! ### Words -/

namespace Felt

/-- Reducing a number keeps its residue. -/
theorem cast_mod_order (n : Nat) : ((n % k.order : Nat) : Felt k) = n :=
  Felt.ext (Nat.mod_mod n k.order)

/-- Taking a number from the modulus negates its residue. -/
theorem cast_order_sub {n : Nat} (h : n ≤ k.order) :
    ((k.order - n : Nat) : Felt k) = -(n : Felt k) := by
  have hzero : (k.order : Felt k) = 0 := (ofNat_eq_zero_iff _).mpr dvd_rfl
  rw [Nat.cast_sub h, hzero, zero_sub]

end Felt

namespace Word

/-- The residue of a word is its number times the unit that the word is stored with. -/
theorem felt_eq_cast (w : Word k) : w.felt = (w.bits : Felt k) * (k.wordUnit : Felt k) := by
  rw [felt, Felt.ofNat_eq_cast, Nat.cast_mul]

/-- The negative of a reduced word, `p` less its bits, stands for the negative residue. -/
theorem felt_ofBits_order_sub {n : Nat} (h : n ≤ k.order) :
    (ofBits (k.order - n) : Word k).felt = -((n : Felt k) * (k.wordUnit : Felt k)) := by
  have hlt : k.order - n < k.wordRange := (Nat.sub_le _ _).trans_lt k.order_lt_wordRange
  have hbits : (ofBits (k.order - n) : Word k).bits = k.order - n := Nat.mod_eq_of_lt hlt
  rw [felt_eq_cast, hbits, Felt.cast_order_sub h, neg_mul]

/-- **The negation of a proper word** stands for the negation. -/
theorem felt_neg {w : Word k} (h : w.Proper) : (-w).felt = -w.felt := by
  cases k with
  | goldilocks =>
      have hle : w.key ≤ BaseField.goldilocks.order := (Nat.mod_lt _ (BaseField.order_pos _)).le
      show (ofBits (BaseField.goldilocks.order - w.key)).felt = _
      rw [felt_ofBits_order_sub hle, felt_eq_cast w]
      exact congrArg (fun a => -(a * _)) (Felt.cast_mod_order w.bits)
  | babyBear =>
      have hlt : w.bits < BaseField.babyBear.order := h
      show (if w.bits = 0 then w
        else ofBits (BaseField.babyBear.order + 0x100000000 - w.bits)).felt = _
      split
      · next hzero => rw [felt_eq_cast, hzero, Nat.cast_zero, zero_mul, neg_zero]
      · have hwrap : (ofBits (BaseField.babyBear.order + 0x100000000 - w.bits) : Word .babyBear) =
            ofBits (BaseField.babyBear.order - w.bits) := by
          rw [Nat.sub_add_comm hlt.le]
          exact Word.ext (Nat.add_mod_right _ _)
        rw [hwrap, felt_ofBits_order_sub hlt.le, ← felt_eq_cast]

/-- A word of one that is not reduced is not negated to a word of the opposite. -/
example : (ofBits (BaseField.babyBear.order + 268435454) : Word .babyBear).felt = 1 ∧
    (-(ofBits (BaseField.babyBear.order + 268435454) : Word .babyBear)).felt ≠ -1 := by decide

end Word

/-! ### Terms -/

namespace Expr

section

variable (valuation : Variable → Felt k) (t u : Term k)

/-- The value of a term as it is made, whether or not a zero coefficient drops the variables. -/
theorem value_term_of (c : Word k) (l : List Variable) :
    (term (.of c l)).value valuation = c.felt * (l.map valuation).prod :=
  Term.value_of c l valuation

/-- A product of terms has the variables of both, and none if one of the terms is zero. -/
@[simp] theorem value_term_mul :
    (term (t * u)).value valuation = (term t).value valuation * (term u).value valuation := by
  show (term (Term.mul t u)).value valuation = _
  unfold Term.mul
  split
  · next h =>
      rw [show term Term.zero = zero from rfl, value_zero]
      rcases (Bool.or_eq_true _ _).mp h with ht | hu
      · rw [value_of_isEmpty valuation (e := term t) ht, zero_mul]
      · rw [value_of_isEmpty valuation (e := term u) hu, mul_zero]
  · rw [value_term_of, value_term, value_term, Word.felt_mul, List.map_append, List.prod_append]
    ring

@[simp] theorem value_term_scale (c : Word k) :
    (term (t * c)).value valuation = (term t).value valuation * c.felt := by
  show (term (.of (t.coeff * c) t.vars)).value valuation = _
  rw [value_term_of, value_term, Word.felt_mul]
  ring

/-- A reduced coefficient is negated as a residue. -/
theorem value_term_neg (h : t.coeff.Proper) :
    (term (-t)).value valuation = -(term t).value valuation := by
  show (term (.of (-t.coeff) t.vars)).value valuation = _
  rw [value_term_of, value_term, Word.felt_neg h, neg_mul]

end

/-! ### Expressions -/

/-- The scalar that the expression evaluates to is the one of an element. -/
def Means (e : Expr k) (valuation : Variable → Felt k) (x : Felt k) : Prop :=
  e.scalar valuation = x.scalar

instance (e : Expr k) (valuation : Variable → Felt k) (x : Felt k) :
    Decidable (e.Means valuation x) :=
  inferInstanceAs (Decidable (_ = _))

variable {valuation : Variable → Felt k} {a b : Expr k} {x y : Felt k}

/-- An expression over proper words means its value. -/
theorem Proper.means (h : a.Proper) (valuation : Variable → Felt k) :
    a.Means valuation (a.value valuation) :=
  scalar_eq_scalar_value h valuation

theorem means_variable (v : Variable) :
    (term (Term.ofVariable v) : Expr k).Means valuation (valuation v) :=
  value_variable valuation v ▸ (proper_variable v).means valuation

theorem means_zero : (zero : Expr k).Means valuation 0 :=
  value_zero valuation ▸ Proper.means (proper_literal Word.closed_proper.zero) valuation

namespace Means

/-- Over proper words there is nothing else that the expression means. -/
theorem value_eq (h : a.Means valuation x) (hproper : a.Proper) : a.value valuation = x :=
  Felt.scalar_injective ((hproper.means valuation).symm.trans h)

/-- The empty expression means zero. -/
theorem eq_zero (h : a.Means valuation x) (hempty : a.isEmpty) : x = 0 := by
  cases a with
  | term t =>
      have hcoeff : t.coeff.scalar = 0 := Word.beq_iff_scalar_eq.mp hempty
      rw [Means, scalar_term, if_pos (t.vars_eq_nil hempty), hcoeff] at h
      exact Felt.scalar_eq_zero.mp h.symm
  | pow base power => cases hempty
  | binop lhs rhs op => cases hempty

/-- An operation of two expressions that mean a value means the operation of the values. -/
theorem binop (ha : a.Means valuation x) (hb : b.Means valuation y) (op : Operator) :
    (binop a b op).Means valuation ((Algebra.field k).apply op x y) := by
  rw [Means, scalar_binop, ha, hb]
  cases op with
  | add => exact (Felt.scalar_add x y).symm
  | sub => exact (Felt.scalar_sub x y).symm
  | mult => exact (Felt.scalar_mul x y).symm

theorem add (ha : a.Means valuation x) (hb : b.Means valuation y) :
    (a + b).Means valuation (x + y) := by
  rw [add_def]
  split
  · next hempty => rwa [ha.eq_zero hempty, zero_add]
  · split
    · next hempty => rwa [hb.eq_zero hempty, add_zero]
    · exact ha.binop hb .add

theorem sub (ha : a.Means valuation x) (hb : b.Means valuation y) :
    (a - b).Means valuation (x - y) :=
  ha.binop hb .sub

theorem mul (ha : a.Means valuation x) (hb : b.Means valuation y) :
    (a * b).Means valuation (x * y) := by
  rw [mul_def]
  split
  · next h =>
      rcases (Bool.or_eq_true _ _).mp h with hempty | hempty
      · rw [ha.eq_zero hempty, zero_mul]
        exact means_zero
      · rw [hb.eq_zero hempty, mul_zero]
        exact means_zero
  · exact ha.binop hb .mult

theorem neg (ha : a.Means valuation x) : (-a).Means valuation (-x) := by
  rw [neg_def, ← zero_sub]
  exact means_zero.sub ha

theorem pow (ha : a.Means valuation x) (n : UInt32) :
    (a.pow n).Means valuation (x ^ n.toNat) := by
  rw [Means, scalar_pow, ha, Felt.scalar_pow]

/-- The operator that simplifies means the operation of the values, too. -/
theorem apply (ha : a.Means valuation x) (hb : b.Means valuation y) (op : Operator) :
    (apply op a b).Means valuation ((Algebra.field k).apply op x y) := by
  cases op with
  | add => exact ha.add hb
  | sub => exact ha.sub hb
  | mult => exact ha.mul hb

end Means

/-! ### Terms as expressions -/

section Terms

variable {t u : Term k} {c : Word k} {r s : Felt k}

/-- The product of two reduced words is reduced, so that a product of terms is proper. -/
theorem proper_term_mul (ht : t.coeff.Proper) (hu : u.coeff.Proper) :
    (term (t * u)).Proper := by
  show (Term.mul t u).coeff.Proper
  unfold Term.mul
  split
  · exact Word.closed_proper.zero
  · exact Word.closed_proper.mul ht hu

/-- A product of terms means the product of their values. -/
theorem means_term_mul (ht : t.coeff.Proper) (hu : u.coeff.Proper)
    (hr : (term t).Means valuation r) (hs : (term u).Means valuation s) :
    (term (t * u)).Means valuation (r * s) := by
  rw [← hr.value_eq ht, ← hs.value_eq hu, ← value_term_mul]
  exact (proper_term_mul ht hu).means valuation

theorem means_term_scale (ht : t.coeff.Proper) (hc : c.Proper) (hr : (term t).Means valuation r) :
    (term (t * c)).Means valuation (r * c.felt) := by
  have hproper : (term (t * c)).Proper := Word.closed_proper.mul ht hc
  rw [← hr.value_eq ht, ← value_term_scale]
  exact hproper.means valuation

/-- The negative of a term means the negative of its value, provided that its coefficient is
reduced. -/
theorem means_term_neg (ht : t.coeff.Proper) (hr : (term t).Means valuation r) :
    (term (-t)).Means valuation (-r) := by
  have hproper : (term (-t)).Proper := Word.proper_neg ht
  rw [← hr.value_eq ht, ← value_term_neg valuation t ht]
  exact hproper.means valuation

/-- **Operators keep the meaning** of their operands: they are the operations of the field, applied
to what the operands mean.  An operator that is assigned has the meaning of the operator, variables
and terms may stand for expressions, and terms are multiplied, negated and put together like
expressions. The coefficients of the terms and the constant that a term is multiplied by are proper
words, as every word is that an element has. -/
theorem means_operators (ha : a.Means valuation x) (hb : b.Means valuation y) (ht : t.coeff.Proper)
    (hu : u.coeff.Proper) (hc : c.Proper) (hr : (term t).Means valuation r)
    (hs : (term u).Means valuation s) (v : Variable) (n : UInt32) :
    ((a + b).Means valuation (x + y) ∧ (a - b).Means valuation (x - y) ∧
      (a * b).Means valuation (x * y) ∧ (-a).Means valuation (-x) ∧
      (a.pow n).Means valuation (x ^ n.toNat)) ∧
    (∀ op, let operation := (Algebra.field k).apply op
      ((assign op b).run a).2.Means valuation (operation x y) ∧
      (Expr.apply op a v).Means valuation (operation x (valuation v)) ∧
      (Expr.apply op v a).Means valuation (operation (valuation v) x) ∧
      (Expr.apply op a t).Means valuation (operation x r)) ∧
    ((term (t * u)).Means valuation (r * s) ∧
      (term (t * (v : Term k))).Means valuation (r * valuation v) ∧
      (term (t * c)).Means valuation (r * c.felt) ∧ (term (-t)).Means valuation (-r)) ∧
    ((t + u).Means valuation (r + s) ∧ (t - u).Means valuation (r - s) ∧
      (t.pow n).Means valuation (r ^ n.toNat)) := by
  have hv : (term (Term.ofVariable v)).Means valuation (valuation v) := means_variable v
  refine ⟨⟨ha.add hb, ha.sub hb, ha.mul hb, ha.neg, ha.pow n⟩, fun op => ?_, ?_,
    hr.add hs, hr.sub hs, hr.pow n⟩
  · exact ⟨ha.apply hb op, ha.apply hv op, hv.apply ha op, ha.apply hr op⟩
  · exact ⟨means_term_mul ht hu hr hs, means_term_mul ht (proper_variable v) hr hv,
      means_term_scale ht hc hr, means_term_neg ht hr⟩

/-- The square of a variable three times, its opposite, and the sum of both. -/
theorem means_operators_opposite :
    let x : Variable := .relativeTo .witness 0 0
    let t : Term .babyBear := .of (Felt.word 3) [x, x]
    t.coeff.Proper ∧ (term t).Means (fun _ => 5) 75 ∧ (term (-t)).Means (fun _ => 5) (-75) ∧
      (t + -t).Means (fun _ => 5) 0 := by
  intro x t
  have ht : t.coeff.Proper := Word.proper_word 3
  have hone : (1 : Word .babyBear).Proper := Word.closed_proper.one
  have hr : (term t).Means (fun _ => 5) 75 := by
    have hvalue : (term t).value (fun _ => 5) = 75 := by rw [value_term_of]; decide
    have hproper : (term t).Proper := ht
    exact hvalue ▸ hproper.means _
  obtain ⟨-, -, ⟨-, -, -, hneg⟩, -⟩ := means_operators hr hr ht ht hone hr hr x 0
  have hnegt : (-t).coeff.Proper := Word.proper_neg ht
  obtain ⟨-, -, -, hadd, -⟩ := means_operators hr hneg ht hnegt hone hr hneg x 0
  rw [add_neg_cancel] at hadd
  exact ⟨ht, hr, hneg, hadd⟩

/-- Without the condition on words: an unreduced word of one, times a variable that is one, has the
negation zero. -/
example : ∃ t : Term .babyBear, (term t).Means (fun _ => 1) 1 ∧ (term (-t)).Means (fun _ => 1) 0 :=
  ⟨.of (.ofBits 2281701375) [.relativeTo .witness 0 0], by decide +kernel⟩

end Terms

end Expr

end Plonkish
