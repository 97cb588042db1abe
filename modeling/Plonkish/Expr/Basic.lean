import Plonkish.Term

/-!
# Expressions — trees of terms, powers and operations

An `Expr k` is a constraint: a tree whose leaves are terms.  Two expressions are the same when the
trees are, leaf by leaf; `a + b` and `b + a` are different.

The operators build trees and simplify in two places only.  A term with coefficient zero is the
empty expression: `+` returns the other operand when one is empty, and `*` returns the empty
expression.  `-` always makes a node, and negation subtracts from the empty expression.  Variables
and terms coerce to expressions, so the operators take mixed operands.
-/

namespace Plonkish

/-- The operations an expression node stands for. -/
inductive Operator where
  /-- Addition. -/
  | add
  /-- Subtraction. -/
  | sub
  /-- Multiplication. -/
  | mult
deriving DecidableEq, Repr, Hashable

namespace Operator

/-- The position of an operator among the three. -/
def tag : Operator → Nat
  | add => 0
  | sub => 1
  | mult => 2

/-- The operator at a position. -/
def ofTag? : Nat → Option Operator
  | 0 => some add
  | 1 => some sub
  | 2 => some mult
  | _ => none

/-- The sign of an operator. -/
def symbol : Operator → String
  | add => "+"
  | sub => "-"
  | mult => "*"

@[simp] theorem ofTag?_tag (o : Operator) : ofTag? o.tag = some o := by cases o <;> rfl

end Operator

/-- A constraint expression. -/
inductive Expr (k : BaseField) where
  /-- A monomial. -/
  | term (t : Term k)
  /-- A power. -/
  | pow (base : Expr k) (power : UInt32)
  /-- An operation on two expressions. -/
  | binop (lhs rhs : Expr k) (op : Operator)
deriving Repr

namespace Expr

variable {k : BaseField}

/-- The empty expression, the term zero. -/
def zero : Expr k := term Term.zero

/-- The expression of a word. -/
def literal (c : Word k) : Expr k := term (Term.constant c)

/-- The constant expression. -/
def constant (c : Felt k) : Expr k := literal c.word

instance : Inhabited (Expr k) := ⟨zero⟩

instance : Coe (Term k) (Expr k) := ⟨term⟩

instance : Coe Variable (Expr k) := ⟨fun v => term (Term.ofVariable v)⟩

/-- Whether two trees are the same, leaf by leaf. -/
def same : Expr k → Expr k → Bool
  | term t, term u => t == u
  | pow a m, pow b n => same a b && m == n
  | binop a b o, binop c d p => same a c && same b d && o == p
  | _, _ => false

instance : BEq (Expr k) := ⟨same⟩

/-- Whether the expression is a term with coefficient zero. -/
def isEmpty : Expr k → Bool
  | term t => t.isZero
  | _ => false

instance : Add (Expr k) where
  add a b := if a.isEmpty then b else if b.isEmpty then a else binop a b .add

instance : Sub (Expr k) where
  sub a b := binop a b .sub

instance : Mul (Expr k) where
  mul a b := if a.isEmpty || b.isEmpty then zero else binop a b .mult

instance : Neg (Expr k) where
  neg a := zero - a

/-- The operator applied to two expressions, with its simplifications. -/
def apply : Operator → Expr k → Expr k → Expr k
  | .add, a, b => a + b
  | .sub, a, b => a - b
  | .mult, a, b => a * b

/-- The operator applied in place.  While the result is computed, the expression is empty. -/
def assign (op : Operator) (b : Expr k) : StateM (Expr k) Unit := do
  let a ← getModify fun _ => zero
  set (apply op a b)

theorem add_def (a b : Expr k) :
    a + b = if a.isEmpty then b else if b.isEmpty then a else binop a b .add := rfl

theorem mul_def (a b : Expr k) :
    a * b = if a.isEmpty || b.isEmpty then zero else binop a b .mult := rfl

theorem same_refl (a : Expr k) : a.same a := by
  induction a with
  | term t => exact BEq.rfl (a := t)
  | pow a m ih => simp [same, ih]
  | binop a₁ a₂ o ih₁ ih₂ => simp [same, ih₁, ih₂]

theorem same_symm {a b : Expr k} (h : a.same b) : b.same a := by
  fun_induction same a b with
  | case1 t u => exact BEq.symm (a := t) h
  | case2 a m b n ih =>
    simp only [Bool.and_eq_true, beq_iff_eq] at h
    simp [same, ih h.1, h.2]
  | case3 a₁ a₂ o b₁ b₂ p ih₁ ih₂ =>
    simp only [Bool.and_eq_true, beq_iff_eq] at h
    simp [same, ih₁ h.1.1, ih₂ h.1.2, h.2]
  | case4 => exact absurd h Bool.false_ne_true

theorem same_trans {a b c : Expr k} (h₁ : a.same b) (h₂ : b.same c) : a.same c := by
  fun_induction same a b generalizing c with
  | case1 t u =>
    cases c with
    | term v => exact BEq.trans (a := t) h₁ h₂
    | _ => exact absurd h₂ Bool.false_ne_true
  | case2 a m b n ih =>
    cases c with
    | pow c q =>
      simp only [same, Bool.and_eq_true, beq_iff_eq] at h₁ h₂ ⊢
      exact ⟨ih h₁.1 h₂.1, h₁.2.trans h₂.2⟩
    | _ => exact absurd h₂ Bool.false_ne_true
  | case3 a₁ a₂ o b₁ b₂ p ih₁ ih₂ =>
    cases c with
    | binop c₁ c₂ q =>
      simp only [same, Bool.and_eq_true, beq_iff_eq] at h₁ h₂ ⊢
      exact ⟨⟨ih₁ h₁.1.1 h₂.1.1, ih₂ h₁.1.2 h₂.1.2⟩, h₁.2.trans h₂.2⟩
    | _ => exact absurd h₂ Bool.false_ne_true
  | case4 => exact absurd h₁ Bool.false_ne_true

instance : EquivBEq (Expr k) where
  rfl := same_refl _
  symm := same_symm
  trans := same_trans

theorem neg_def (a : Expr k) : -a = zero - a := rfl

end Expr

/-- The sum of two terms, as an expression. -/
instance {k : BaseField} : HAdd (Term k) (Term k) (Expr k) := ⟨fun t u => (t : Expr k) + u⟩

/-- The difference of two terms, as an expression. -/
instance {k : BaseField} : HSub (Term k) (Term k) (Expr k) := ⟨fun t u => (t : Expr k) - u⟩

/-- The power of a term, as an expression. -/
def Term.pow {k : BaseField} (t : Term k) (power : UInt32) : Expr k := .pow t power

end Plonkish
