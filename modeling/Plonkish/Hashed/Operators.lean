import Plonkish.Expr.Visit
import Plonkish.Hashed
import Plonkish.Json.Stored

/-!
# Hashed forms — operators

The operators on terms and expressions as they are kept.  Each makes its nodes by `Hashed.Term.new`
and the three makers of `Hashed.Expr`, so digests are formed with the nodes and never copied from a
node with other contents.  An assignment with an operator is the operator.

`Hashed.Expr.same` compares two expressions node by node, the digest first.

Leaving the digests out gives the operators on terms and expressions: `Term.hashed_mul`,
`Expr.hashed_add` and so on say that these are the same operators, and `Expr.same_hashed` that
expressions are compared in the same way.
-/

namespace Plonkish

variable {k : BaseField}

namespace Hashed

/-! ### Terms -/

namespace Term

/-- The term without variables and with coefficient zero. -/
def zero (D : Digesting k) : Term k := .new D 0 []

/-- The constant term. -/
def constant (D : Digesting k) (c : Word k) : Term k := .new D c []

/-- The term of a single variable. -/
def ofVariable (D : Digesting k) (v : Variable) : Term k := .new D 1 [v]

/-- Whether the coefficient is zero. -/
def isZero (t : Term k) : Bool := t.coeff == 0

/-- The number of variables. -/
def degree (t : Term k) : Nat := t.vars.length

/-- Each different variable with the number of times it occurs, in order. -/
def multiplicities (t : Term k) : List (Variable × Nat) :=
  (Variable.distinct t.vars).map fun v => (v, t.vars.count v)

/-- The product of two terms. -/
def mul (D : Digesting k) (t u : Term k) : Term k :=
  if t.isZero || u.isZero then zero D else .new D (t.coeff * u.coeff) (t.vars ++ u.vars)

/-- The multiple by a constant. -/
def scale (D : Digesting k) (t : Term k) (c : Word k) : Term k := .new D (t.coeff * c) t.vars

/-- The negation. -/
def neg (D : Digesting k) (t : Term k) : Term k := .new D (-t.coeff) t.vars

/-- The term with each variable replaced. -/
def mapVariables (D : Digesting k) (f : Variable → Variable) (t : Term k) : Term k :=
  .new D t.coeff (t.vars.map f)

/-- Whether two terms and their digests are the same. -/
def same (t u : Term k) : Bool := t.digest == u.digest && (t.coeff == u.coeff && t.vars == u.vars)

/-- The term in a JSON text, with its digest. -/
def ofJson (D : Digesting k) (text : String) : Except Json.Problem (Term k) :=
  return (← Json.read (Json.readTerm Json.depthLimit) text).toHashed D

end Term

/-! ### Expressions -/

namespace Expr

/-- The empty expression, the term zero. -/
def zero (D : Digesting k) : Expr k := ofTerm (.zero D)

/-- Whether the expression is a term with coefficient zero. -/
def isEmpty : Expr k → Bool
  | term t _ => t.isZero
  | _ => false

/-- The sum, which is the other operand if one is empty. -/
def add (D : Digesting k) (a b : Expr k) : Expr k :=
  if a.isEmpty then b else if b.isEmpty then a else ofBinop D a b .add

/-- The difference. -/
def sub (D : Digesting k) (a b : Expr k) : Expr k := ofBinop D a b .sub

/-- The product, which is empty if an operand is. -/
def mul (D : Digesting k) (a b : Expr k) : Expr k :=
  if a.isEmpty || b.isEmpty then zero D else ofBinop D a b .mult

/-- The negation. -/
def neg (D : Digesting k) (a : Expr k) : Expr k := sub D (zero D) a

/-- The same tree with each variable replaced. -/
def mapVariables (D : Digesting k) (f : Variable → Variable) : Expr k → Expr k
  | term t _ => ofTerm (t.mapVariables D f)
  | pow base power _ => ofPow D (base.mapVariables D f) power
  | binop lhs rhs op _ => ofBinop D (lhs.mapVariables D f) (rhs.mapVariables D f) op

/-- Whether two trees and the digests at their nodes are the same. -/
def same : Expr k → Expr k → Bool
  | term t x, term u y => x == y && t.same u
  | pow a m x, pow b n y => x == y && (same a b && m == n)
  | binop a b o x, binop c d p y => x == y && (same a c && same b d && o == p)
  | _, _ => false

/-- The expression in a JSON text, with all its digests. -/
def ofJson (D : Digesting k) (text : String) : Except Json.Problem (Expr k) :=
  return (← Json.read (Json.readExpr Json.depthLimit) text).toHashed D

end Expr

end Hashed

/-! ### Leaving the digests out -/

namespace Term

variable {D : Digesting k}

@[simp] theorem hashed_of (c : Word k) (l : List Variable) : (of c l).hashed D = .new D c l := rfl

@[simp] theorem isZero_hashed (t : Term k) : (t.hashed D).isZero = t.isZero := rfl

theorem hashed_mul (t u : Term k) : (t * u).hashed D = (t.hashed D).mul D (u.hashed D) := by
  show (mul t u).hashed D = _
  unfold mul Hashed.Term.mul
  rw [isZero_hashed, isZero_hashed, apply_ite (hashed D)]
  rfl

theorem hashed_scale (t : Term k) (c : Word k) : (t * c).hashed D = (t.hashed D).scale D c := rfl

theorem hashed_neg (t : Term k) : (-t).hashed D = (t.hashed D).neg D := rfl

theorem hashed_mapVariables (f : Variable → Variable) (t : Term k) :
    (t.mapVariables f).hashed D = (t.hashed D).mapVariables D f := rfl

end Term

namespace Expr

variable {D : Digesting k}

@[simp] theorem isEmpty_hashed (a : Expr k) : (a.hashed D).isEmpty = a.isEmpty := by
  cases a <;> rfl

theorem hashed_zero : (zero : Expr k).hashed D = .zero D := rfl

theorem hashed_add (a b : Expr k) : (a + b).hashed D = (a.hashed D).add D (b.hashed D) := by
  rw [add_def, Hashed.Expr.add, isEmpty_hashed, isEmpty_hashed, apply_ite (hashed D),
    apply_ite (hashed D)]
  rfl

theorem hashed_sub (a b : Expr k) : (a - b).hashed D = (a.hashed D).sub D (b.hashed D) := rfl

theorem hashed_mul (a b : Expr k) : (a * b).hashed D = (a.hashed D).mul D (b.hashed D) := by
  rw [mul_def, Hashed.Expr.mul, isEmpty_hashed, isEmpty_hashed, apply_ite (hashed D)]
  rfl

theorem hashed_neg (a : Expr k) : (-a).hashed D = (a.hashed D).neg D := rfl

theorem hashed_mapVariables (f : Variable → Variable) (a : Expr k) :
    (a.mapVariables f).hashed D = (a.hashed D).mapVariables D f := by
  induction a with
  | term t => rfl
  | pow base power ih => exact congrArg (Hashed.Expr.ofPow D · power) ih
  | binop lhs rhs op ihl ihr =>
    rw [mapVariables, hashed, ihl, ihr]
    rfl

/-- Expressions are compared in the same way when the digests are kept. -/
theorem same_hashed (a b : Expr k) : (a.hashed D).same (b.hashed D) = a.sameBy D b := by
  rw [sameBy_eq_same]
  induction a generalizing b with
  | term t =>
    cases b with
    | term u =>
      have h := digest_beq_and_same D (term t) (term u)
      exact (congrArg (_ && ·) h).trans h
    | pow b n => rfl
    | binop b c p => rfl
  | pow a m ih =>
    cases b with
    | term u => rfl
    | pow b n =>
      have h := digest_beq_and_same D (pow a m) (pow b n)
      rw [hashed, hashed, Hashed.Expr.ofPow, Hashed.Expr.ofPow, Hashed.Expr.same, ih, digest_hashed,
        digest_hashed]
      exact h
    | binop b c p => rfl
  | binop a₁ a₂ o ih₁ ih₂ =>
    cases b with
    | term u => rfl
    | pow b n => rfl
    | binop b₁ b₂ p =>
      have h := digest_beq_and_same D (binop a₁ a₂ o) (binop b₁ b₂ p)
      rw [hashed, hashed, Hashed.Expr.ofBinop, Hashed.Expr.ofBinop, Hashed.Expr.same, ih₁, ih₂,
        digest_hashed, digest_hashed, digest_hashed, digest_hashed]
      exact h

end Expr

end Plonkish
