import Plonkish.Proofs.Evaluate

/-!
# Proofs — expressions built with operators

The operators on expressions simplify, which does not change values: `Expr.value_add`,
`Expr.value_sub` and `Expr.value_mul` say that over the field they are the operations of the field,
and `Expr.value_variable` and `Expr.value_constant` what the leaves are.  Neither do they bring in
variables that the operands do not have (`Expr.closed_within`, with `Expr.Closed` for what holds of
operands and what operators make of them).

Two trees that compare as the same may differ in the words of their coefficients, but have the same
variables and the same values (`Expr.occurrences_eq_of_same`, `Expr.value_eq_of_same`).
-/

namespace Plonkish

variable {k : BaseField}

/-- A variable is not empty, since its coefficient is not the word zero. -/
theorem Word.one_beq_zero : ((1 : Word k) == 0) = false := by cases k <;> rfl

/-! ### Terms -/

namespace Term

/-- The value of a term is its coefficient times the product of its variables. -/
theorem combine_field (t : Term k) (values : List (Felt k)) :
    t.combine (.field k) values = t.coeff.felt * values.prod := by
  cases values with
  | nil => rw [List.prod_nil, mul_one]; rfl
  | cons a rest =>
      have hproduct : rest.foldl (Algebra.field k).product a = (a :: rest).prod := by
        rw [List.prod_eq_foldl, List.foldl_cons, one_mul]
        rfl
      rw [combine, hproduct]
      split
      · next hone => rw [Word.felt_eq_of_beq hone, Word.felt_one, one_mul]
      · exact mul_comm _ _

theorem valueOf_field (t : Term k) (valuation : Variable → Felt k) :
    t.valueOf (.field k) valuation = t.coeff.felt * (t.vars.map valuation).prod := by
  rw [← combine_map, combine_field]

/-- A term with coefficient zero is zero, whatever its variables are. -/
theorem valueOf_of_isZero {t : Term k} (h : t.isZero) (valuation : Variable → Felt k) :
    t.valueOf (.field k) valuation = 0 := by
  rw [valueOf_field, Word.felt_eq_of_beq h, Word.felt_zero, zero_mul]

/-- Bringing variables to normal form does not change the value of the term. -/
theorem value_of (c : Word k) (l : List Variable) (valuation : Variable → Felt k) :
    (of c l).valueOf (.field k) valuation = c.felt * (l.map valuation).prod := by
  rw [valueOf_field, vars_of, coeff_of, normalVars]
  split
  · next hzero => rw [Word.felt_eq_of_beq hzero, Word.felt_zero, zero_mul, zero_mul]
  · rw [((Variable.sort_perm l).map valuation).prod_eq]

/-- A constant has no variables. -/
@[simp] theorem vars_constant (c : Word k) : (constant c).vars = [] := by
  show normalVars c [] = []
  unfold normalVars
  split
  · rfl
  · exact Variable.sort_of_pairwise .nil

/-- A variable has itself, and is not collapsed. -/
@[simp] theorem vars_ofVariable (v : Variable) : (ofVariable v : Term k).vars = [v] := by
  show normalVars 1 [v] = [v]
  rw [normalVars, Word.one_beq_zero, if_neg Bool.false_ne_true]
  exact Variable.sort_of_pairwise (List.pairwise_singleton _ v)

end Term

namespace Expr

/-! ### Values -/

section Values

variable (valuation : Variable → Felt k)

/-- The value of a term is its coefficient times the product of its variables. -/
theorem value_term (t : Term k) :
    (term t).value valuation = t.coeff.felt * (t.vars.map valuation).prod :=
  t.valueOf_field valuation

theorem value_pow (base : Expr k) (power : UInt32) :
    (pow base power).value valuation = base.value valuation ^ power.toNat := rfl

/-- The value of a node is that of its operator. -/
theorem value_binop (lhs rhs : Expr k) (op : Operator) :
    (binop lhs rhs op).value valuation =
      (Algebra.field k).apply op (lhs.value valuation) (rhs.value valuation) := rfl

/-- A word has the element that it stands for as its value. -/
@[simp] theorem value_literal (c : Word k) : (literal c).value valuation = c.felt := by
  rw [literal, value_term, Term.vars_constant, List.map_nil, List.prod_nil, mul_one]
  rfl

@[simp] theorem value_constant (c : Felt k) : (constant c).value valuation = c := by
  rw [constant, value_literal, Word.felt_word]

/-- A variable has its value under the valuation. -/
@[simp] theorem value_variable (v : Variable) :
    (term (Term.ofVariable v) : Expr k).value valuation = valuation v := by
  rw [value_term, Term.vars_ofVariable, List.map_singleton, List.prod_singleton]
  show (1 : Word k).felt * _ = _
  rw [Word.felt_one, one_mul]

@[simp] theorem value_zero : (zero : Expr k).value valuation = 0 := by
  rw [zero, Term.zero, ← literal, value_literal, Word.felt_zero]

/-- The empty expression is zero, which is why sums and products may leave it out. -/
theorem value_of_isEmpty {e : Expr k} (h : e.isEmpty) : e.value valuation = 0 := by
  cases e with
  | term t => exact t.valueOf_of_isZero h valuation
  | pow base power => cases h
  | binop lhs rhs op => cases h

/-- Leaving out an empty operand does not change the value of a sum. -/
@[simp] theorem value_add (a b : Expr k) :
    (a + b).value valuation = a.value valuation + b.value valuation := by
  rw [add_def]
  split
  · next ha => rw [value_of_isEmpty valuation ha, zero_add]
  · split
    · next hb => rw [value_of_isEmpty valuation hb, add_zero]
    · exact value_binop valuation a b .add

/-- A difference always is a node. -/
@[simp] theorem value_sub (a b : Expr k) :
    (a - b).value valuation = a.value valuation - b.value valuation :=
  value_binop valuation a b .sub

/-- An empty operand makes a product empty, and its value zero. -/
@[simp] theorem value_mul (a b : Expr k) :
    (a * b).value valuation = a.value valuation * b.value valuation := by
  rw [mul_def]
  split
  · next h =>
      rw [value_zero]
      rcases (Bool.or_eq_true _ _).mp h with ha | hb
      · rw [value_of_isEmpty valuation ha, zero_mul]
      · rw [value_of_isEmpty valuation hb, mul_zero]
  · exact value_binop valuation a b .mult

end Values

/-! ### Variables -/

/-- Every variable of the expression has a property. -/
def Within (P : Variable → Prop) (e : Expr k) : Prop := ∀ v ∈ e.occurrences, P v

section Variables

variable {P : Variable → Prop} {a b : Expr k}

/-- A variable has only itself. -/
theorem within_variable {v : Variable} (h : P v) :
    (term (Term.ofVariable v) : Expr k).Within P := by
  intro u hu
  rw [occurrences_term, Term.vars_ofVariable, List.mem_singleton] at hu
  exact hu ▸ h

/-- A constant has no variables at all. -/
theorem within_literal (c : Word k) : (literal c).Within P := by
  intro v hv
  rw [literal, occurrences_term, Term.vars_constant] at hv
  cases hv

/-- A node has the variables of its operands. -/
theorem within_binop {op : Operator} (ha : a.Within P) (hb : b.Within P) :
    (binop a b op).Within P := by
  intro v hv
  rw [occurrences_binop, List.mem_append] at hv
  exact hv.elim (ha v) (hb v)

/-- A set of expressions that has all constants, and what operators make of its members. -/
structure Closed (Q : Expr k → Prop) : Prop where
  /-- Constants are in the set. -/
  constant (c : Felt k) : Q (constant c)
  /-- Sums are in the set. -/
  add {a b : Expr k} : Q a → Q b → Q (a + b)
  /-- Differences are in the set. -/
  sub {a b : Expr k} : Q a → Q b → Q (a - b)
  /-- Products are in the set. -/
  mul {a b : Expr k} : Q a → Q b → Q (a * b)

/-- Operators simplify, so it is enough to look at nodes and at the empty expression. -/
theorem Closed.of_binop {Q : Expr k → Prop} (hconstant : ∀ c, Q (.constant c)) (hzero : Q zero)
    (hbinop : ∀ {a b op}, Q a → Q b → Q (binop a b op)) : Closed Q where
  constant := hconstant
  add {a b} ha hb := by
    rw [add_def]
    split
    · exact hb
    · split
      · exact ha
      · exact hbinop ha hb
  sub ha hb := hbinop ha hb
  mul {a b} ha hb := by
    rw [mul_def]
    split
    · exact hzero
    · exact hbinop ha hb

/-- Operators bring in no variables. -/
theorem closed_within (P : Variable → Prop) : Closed (Within (k := k) P) :=
  .of_binop (fun c => within_literal c.word) (within_literal 0) within_binop

end Variables

/-! ### Occurrences -/

section Occurrences

variable {a b : Expr k}

/-- A variable is kept in a sum or product. -/
@[simp] theorem isEmpty_variable (v : Variable) :
    (term (Term.ofVariable v) : Expr k).isEmpty = false :=
  Word.one_beq_zero

@[simp] theorem isEmpty_sub (a b : Expr k) : (a - b).isEmpty = false := rfl

/-- A product is empty only if one of its operands is. -/
theorem isEmpty_mul (ha : a.isEmpty = false) (hb : b.isEmpty = false) :
    (a * b).isEmpty = false := by
  rw [mul_def, ha, hb]
  rfl

@[simp] theorem occurrences_variable (v : Variable) :
    (term (Term.ofVariable v) : Expr k).occurrences = [v] := by
  rw [occurrences_term, Term.vars_ofVariable]

/-- The variables of a difference are those of the left operand, and then those of the right one. -/
@[simp] theorem occurrences_sub (a b : Expr k) :
    (a - b).occurrences = a.occurrences ++ b.occurrences :=
  occurrences_binop a b .sub

/-- The same of a sum of operands that are not empty. -/
theorem occurrences_add (ha : a.isEmpty = false) (hb : b.isEmpty = false) :
    (a + b).occurrences = a.occurrences ++ b.occurrences := by
  rw [add_def, ha, hb]
  exact occurrences_binop a b .add

/-- A product has all variables of its factors, unless one of these is empty. -/
theorem occurrences_mul (ha : a.isEmpty = false) (hb : b.isEmpty = false) :
    (a * b).occurrences = a.occurrences ++ b.occurrences := by
  rw [mul_def, ha, hb]
  exact occurrences_binop a b .mult

end Occurrences

/-! ### Trees that compare as the same -/

variable {a b : Expr k}

/-- Trees that compare as the same have the same variables in the same places. -/
theorem occurrences_eq_of_same (h : a.same b) : a.occurrences = b.occurrences := by
  fun_induction same a b with
  | case1 t u => rw [occurrences_term, occurrences_term, (Term.beq_iff.mp h).2]
  | case2 a m b n ih =>
      rw [Bool.and_eq_true] at h
      exact ih h.1
  | case3 a₁ a₂ o b₁ b₂ p ih₁ ih₂ =>
      rw [Bool.and_eq_true, Bool.and_eq_true] at h
      rw [occurrences_binop, occurrences_binop, ih₁ h.1.1, ih₂ h.1.2]
  | case4 => cases h

/-- Trees that compare as the same have the same value, as equal words stand for the same element.
-/
theorem value_eq_of_same (h : a.same b) (valuation : Variable → Felt k) :
    a.value valuation = b.value valuation := by
  fun_induction same a b with
  | case1 t u =>
      obtain ⟨hcoeff, hvars⟩ := Term.beq_iff.mp h
      rw [value_term, value_term, Word.felt_eq_of_beq hcoeff, hvars]
  | case2 a m b n ih =>
      rw [Bool.and_eq_true, beq_iff_eq] at h
      rw [value_pow, value_pow, ih h.1, h.2]
  | case3 a₁ a₂ o b₁ b₂ p ih₁ ih₂ =>
      rw [Bool.and_eq_true, Bool.and_eq_true, beq_iff_eq] at h
      rw [value_binop, value_binop, ih₁ h.1.1, ih₂ h.1.2, h.2]
  | case4 => cases h

end Expr

end Plonkish
