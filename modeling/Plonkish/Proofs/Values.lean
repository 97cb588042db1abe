import Plonkish.Proofs.Operators
import Plonkish.Proofs.Scalars

/-!
# Proofs — values as scalars

The scalar of an expression is computed from the words of its coefficients, its value in the field
from the elements that these stand for.  Where the words are proper (`Expr.Proper`), the scalar is
the one of the value: `Expr.scalar_eq_scalar_value` under a valuation, and `Expr.evaluate_scalars`
whatever looking a variable up may do.  Other words can give another scalar, though of the same
element.

* `Expr.closed_proper`: what operators make of expressions over proper words is over proper words.
* `Expr.scalar_term`: the scalar of a term, for any coefficient.
* `Expr.scalar_eq_of_same`: expressions that compare as the same have the same scalars.
-/

namespace Plonkish

variable {k : BaseField}

/-! ### Terms -/

theorem Felt.scalar_mul_one (a : Felt k) : a.scalar * 1 = a.scalar := by
  rw [← scalar_one, ← scalar_mul, mul_one]

namespace Term

/-- A product of reduced words is the word of the product. -/
theorem foldl_product_scalars (a : Felt k) (l : List (Felt k)) :
    (l.map Felt.scalar).foldl (Algebra.scalars k).product a.scalar = (a * l.prod).scalar := by
  induction l generalizing a with
  | nil => rw [List.map_nil, List.foldl_nil, List.prod_nil, mul_one]
  | cons b l ih =>
      rw [List.map_cons, List.foldl_cons, List.prod_cons, ← mul_assoc, ← ih, Felt.scalar_mul]
      rfl

/-- A term is the product of its variables, multiplied by its coefficient, which stands alone if
there are no variables. -/
theorem combine_scalars (t : Term k) (values : List (Felt k)) :
    t.combine (.scalars k) (values.map Felt.scalar) =
      if values = [] then t.coeff.scalar else values.prod.scalar * t.coeff.scalar := by
  cases values with
  | nil => rfl
  | cons a rest =>
      rw [List.map_cons, combine, foldl_product_scalars, if_neg (List.cons_ne_nil a rest),
        List.prod_cons]
      split
      · next hone =>
          rw [Word.beq_iff_scalar_eq.mp hone]
          exact (Felt.scalar_mul_one _).symm
      · rfl

end Term

namespace Expr

/-- The scalar of a term, for any coefficient. -/
theorem scalar_term (t : Term k) (valuation : Variable → Felt k) :
    (term t).scalar valuation = if t.vars = [] then t.coeff.scalar
      else (t.vars.map valuation).prod.scalar * t.coeff.scalar := by
  have hcombine := t.combine_scalars (t.vars.map valuation)
  simp only [List.map_map, List.map_eq_nil_iff] at hcombine
  rw [scalar_eq, ← hcombine]
  exact (t.combine_map _).symm

theorem scalar_pow (base : Expr k) (power : UInt32) (valuation : Variable → Felt k) :
    (pow base power).scalar valuation = base.scalar valuation ^ power.toNat := by
  rw [scalar_eq, scalar_eq]
  rfl

theorem scalar_binop (lhs rhs : Expr k) (op : Operator) (valuation : Variable → Felt k) :
    (binop lhs rhs op).scalar valuation =
      (Algebra.scalars k).apply op (lhs.scalar valuation) (rhs.scalar valuation) := by
  rw [scalar_eq, scalar_eq, scalar_eq]
  rfl

/-- Only the variables that occur matter. -/
theorem scalar_congr {valuation valuation' : Variable → Felt k} {e : Expr k}
    (h : ∀ v ∈ e.occurrences, valuation v = valuation' v) :
    e.scalar valuation = e.scalar valuation' := by
  rw [scalar_eq, scalar_eq]
  exact valueOf_congr fun v hv => congrArg _ (h v hv)

/-- Trees that compare as the same have the same scalars, since comparisons see no more of a word.
-/
theorem scalar_eq_of_same {a b : Expr k} (h : a.same b) (valuation : Variable → Felt k) :
    a.scalar valuation = b.scalar valuation := by
  fun_induction same a b with
  | case1 t u =>
      obtain ⟨hcoeff, hvars⟩ := Term.beq_iff.mp h
      rw [scalar_term, scalar_term, Word.beq_iff_scalar_eq.mp hcoeff, hvars]
  | case2 a m b n ih =>
      rw [Bool.and_eq_true, beq_iff_eq] at h
      rw [scalar_pow, scalar_pow, ih h.1, h.2]
  | case3 a₁ a₂ o b₁ b₂ p ih₁ ih₂ =>
      rw [Bool.and_eq_true, Bool.and_eq_true, beq_iff_eq] at h
      rw [scalar_binop, scalar_binop, ih₁ h.1.1, ih₂ h.1.2, h.2]
  | case4 => cases h

/-! ### Expressions over proper words -/

/-- The coefficients of all terms are proper words. -/
def Proper : Expr k → Prop
  | term t => t.coeff.Proper
  | pow base _ => base.Proper
  | binop lhs rhs _ => lhs.Proper ∧ rhs.Proper

theorem proper_literal {c : Word k} (h : c.Proper) : (literal c).Proper := h

theorem proper_variable (v : Variable) : (term (Term.ofVariable v) : Expr k).Proper :=
  Word.closed_proper.one

/-- Operators keep to proper words. -/
theorem closed_proper : Closed (Proper (k := k)) :=
  .of_binop (fun c => proper_literal (Word.proper_word c)) (proper_literal Word.closed_proper.zero)
    .intro

/-- The values at the leaves may be taken in the field, where coefficients are proper. -/
theorem combine_scalars {e : Expr k} (h : e.Proper) (values : List (Felt k)) :
    e.combine (.scalars k) (values.map Felt.scalar) = (e.combine (.field k) values).scalar := by
  induction e generalizing values with
  | term t =>
      have hcoeff : t.coeff.scalar = t.coeff.felt.scalar := Word.scalar_eq_scalar_felt h
      show t.combine (.scalars k) _ = (t.combine (.field k) _).scalar
      rw [t.combine_scalars, t.combine_field, hcoeff]
      split
      · next hnil => rw [hnil, List.prod_nil, mul_one]
      · rw [← Felt.scalar_mul, mul_comm]
  | pow base power ih =>
      show base.combine _ _ ^ _ = _
      rw [ih h, ← Felt.scalar_pow]
      rfl
  | binop lhs rhs op ihl ihr =>
      simp only [combine, ← List.map_take, ← List.map_drop]
      rw [ihl h.1, ihr h.2]
      cases op with
      | add => exact (Felt.scalar_add _ _).symm
      | sub => exact (Felt.scalar_sub _ _).symm
      | mult => exact (Felt.scalar_mul _ _).symm

/-- **The scalar of an expression over proper words** is that of its value in the field. -/
theorem scalar_eq_scalar_value {e : Expr k} (h : e.Proper) (valuation : Variable → Felt k) :
    e.scalar valuation = (e.value valuation).scalar := by
  rw [scalar_eq, value, ← combine_map, ← combine_map, ← combine_scalars h, List.map_map]
  rfl

/-- The test for zero sees through the words of a proper expression. -/
theorem scalar_eq_zero_iff {e : Expr k} (h : e.Proper) {valuation : Variable → Felt k} :
    e.scalar valuation = 0 ↔ e.value valuation = 0 := by
  rw [scalar_eq_scalar_value h, Felt.scalar_eq_zero]

/-- An expression over proper words is evaluated as it is in the field. -/
theorem evaluate_scalars {m : Type → Type} [Monad m] [LawfulMonad m] {e : Expr k} (h : e.Proper)
    (look : Variable → m (Felt k)) :
    e.evaluate (.scalars k) (fun v => Felt.scalar <$> look v) =
      Felt.scalar <$> e.evaluate (.field k) look := by
  rw [evaluate_eq_mapM, evaluate_eq_mapM, mapM_map, Functor.map_map, Functor.map_map]
  exact congrArg (· <$> _) (funext (combine_scalars h))

end Expr

end Plonkish
