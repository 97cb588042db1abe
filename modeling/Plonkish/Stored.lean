import Plonkish.Expr.Basic
import Plonkish.Poly.PointValues

/-!
# Stored forms — values as they are written

The types in `Stored` are the values that a reader sees before they are checked or brought to normal
form: coefficients and values are words, and the variables of a term stand in the order they were
written.  `toTerm` and `toExpr` bring terms to normal form, with their words kept; `toPoly` and
`toPointValues` give the polynomial that the words stand for.

Conversely, `Term.stored`, `Expr.stored`, `Poly.stored` and `PointValues.stored` are the forms that
are written, and reading them back gives the value again.

A stored polynomial may end in words that stand for zero and are not the word zero.  These count as
coefficients: `Stored.Poly.degree`, `Stored.Poly.isZero` and the text look at the words.
-/

namespace Plonkish

namespace Stored

/-- A term as it is written. -/
structure Term (k : BaseField) where
  /-- The word of the coefficient. -/
  coeff : Word k
  /-- The variables, in any order. -/
  vars : List Variable
deriving Repr

/-- An expression as it is written. -/
inductive Expr (k : BaseField) where
  /-- A monomial. -/
  | term (t : Term k)
  /-- A power. -/
  | pow (base : Expr k) (power : UInt32)
  /-- An operation on two expressions. -/
  | binop (lhs rhs : Expr k) (op : Operator)
deriving Repr

/-- A polynomial in coefficient form as it is written. -/
structure Poly (k : BaseField) where
  /-- The words of the coefficients. -/
  coeffs : List (Word k)
deriving Repr

/-- A polynomial in point-value form as it is written; nothing ties the degree to the values. -/
structure PointValues (k : BaseField) where
  /-- The bound on the degree. -/
  degree : Nat
  /-- The words of the values. -/
  values : List (Word k)
deriving Repr

/-- A domain as it is written; nothing ties the three numbers to each other. -/
structure Domain (k : BaseField) where
  /-- The number of points. -/
  size : Nat
  /-- The logarithm of the number of points. -/
  logSize : Nat
  /-- The word of the generator. -/
  omega : Word k
deriving Repr

variable {k : BaseField}

/-- The term in normal form that a stored one denotes. -/
def Term.toTerm (t : Term k) : Plonkish.Term k := .of t.coeff t.vars

/-- The expression that a stored one denotes. -/
def Expr.toExpr : Expr k → Plonkish.Expr k
  | term t => .term t.toTerm
  | pow base power => .pow base.toExpr power
  | binop lhs rhs op => .binop lhs.toExpr rhs.toExpr op

/-- The polynomial that a stored one denotes. -/
def Poly.toPoly (p : Poly k) : Plonkish.Poly k := ⟨p.coeffs.map Word.felt⟩

/-- Whether every coefficient is the word zero. -/
def Poly.isZero (p : Poly k) : Bool := p.coeffs.all (· == 0)

/-- The place of the last coefficient that is not the word zero, and zero if there is none. -/
def Poly.degree (p : Poly k) : Nat := (p.coeffs.reverse.dropWhile (· == 0)).length - 1

/-- The terms whose coefficient is not the word zero, joined by `+`, or `0`. -/
protected def Poly.toString (p : Poly k) : String :=
  let terms := p.coeffs.zipIdx.filter fun (c, _) => c != 0
  Plonkish.Poly.sumText (terms.map fun (c, i) => (c.felt, i))

instance : ToString (Poly k) := ⟨Poly.toString⟩

/-- The polynomial that a stored one denotes. -/
def PointValues.toPointValues (p : PointValues k) : Plonkish.PointValues k :=
  ⟨p.degree, p.values.map Word.felt⟩

end Stored

/-- The term as it is written. -/
def Term.stored {k : BaseField} (t : Term k) : Stored.Term k := ⟨t.coeff, t.vars⟩

/-- The expression as it is written. -/
def Expr.stored {k : BaseField} : Expr k → Stored.Expr k
  | term t => .term t.stored
  | pow base power => .pow base.stored power
  | binop lhs rhs op => .binop lhs.stored rhs.stored op

/-- The polynomial as it is written. -/
def Poly.stored {k : BaseField} (p : Poly k) : Stored.Poly k := ⟨p.coeffs.map Felt.word⟩

/-- The polynomial as it is written. -/
def PointValues.stored {k : BaseField} (p : PointValues k) : Stored.PointValues k :=
  ⟨p.degree, p.values.map Felt.word⟩

/-- The domain as it is written. -/
def Domain.stored {k : BaseField} (d : Domain k) : Stored.Domain k := ⟨d.size, d.log, d.omega.word⟩

namespace Stored

variable {k : BaseField}

@[simp] theorem Term.toTerm_stored (t : Plonkish.Term k) : t.stored.toTerm = t := by
  simp [Term.toTerm, Plonkish.Term.stored, Plonkish.Term.of_self]

@[simp] theorem Expr.toExpr_stored (e : Plonkish.Expr k) : e.stored.toExpr = e := by
  induction e with
  | term t => simp [Plonkish.Expr.stored, Expr.toExpr]
  | pow base power ih => simp [Plonkish.Expr.stored, Expr.toExpr, ih]
  | binop lhs rhs op ihl ihr => simp [Plonkish.Expr.stored, Expr.toExpr, ihl, ihr]

@[simp] theorem Poly.toPoly_stored (p : Plonkish.Poly k) : p.stored.toPoly = p := by
  simp [Poly.toPoly, Plonkish.Poly.stored, Function.comp_def]

@[simp] theorem PointValues.toPointValues_stored (p : Plonkish.PointValues k) :
    p.stored.toPointValues = p := by
  simp [PointValues.toPointValues, Plonkish.PointValues.stored, Function.comp_def]

end Stored

end Plonkish
