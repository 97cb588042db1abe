import Plonkish.Circuit.Basic
import Plonkish.Expr.Evaluate
import Plonkish.Table.Columns

/-!
# Circuits — the value of a constraint

A constraint has a value at each row of a table, and as a polynomial over all rows.

* `Expr.atRow` and `Expr.tryAtRow` read the variables from an anchor row; `Expr.snapshot` collects
  the values of the variables for `Expr.valueIn`.  The value is a scalar, computed from the words of
  the coefficients.
* `Expr.overColumns` computes the constraint from the columns of a table.  The shifted columns are
  computed first, one for each different variable with a rotation.  Polynomials are over the field,
  so a coefficient counts by the element that its word stands for.
* `Gate.selected` multiplies the constraints of a gate by the column of its selector.
-/

namespace Plonkish

variable {k : BaseField}

namespace Expr

/-! ### At a row -/

/-- The value at an anchor row, all of whose cells have to exist. -/
def atRow (e : Expr k) (t : Table k) (row : Nat) : Except Fault (Scalar k) :=
  e.evaluate (.scalars k) fun v => Felt.scalar <$> t.resolve v row

/-- The value at an anchor row. -/
def tryAtRow (e : Expr k) (t : Table k) (row : Nat) : Except Failure (Scalar k) :=
  e.evaluate (.scalars k) fun v => Felt.scalar <$> t.tryResolve v row

/-- The values of the variables at an anchor row. -/
def snapshot (e : Expr k) (t : Table k) (row : Nat) : Except Failure (EvaluationMap k) :=
  e.distinctVariables.foldlM (fun map v => return map.insert v (← t.tryResolve v row)) ∅

end Expr

/-! ### Over the columns -/

/-- The operations on polynomials in coefficient form, which may fault. -/
def Poly.algebra (k : BaseField) : Algebra k (Except Fault (Poly k)) where
  constant c := .ok (.constant c.felt)
  sum p q := return (← p) + (← q)
  difference p q := return (← p) - (← q)
  product p q := do (← p).mul (← q)
  scaled p c := return (← p).scale c.felt
  power p n := do (← p).pow n

/-- The operations on polynomials in point-value form, which may fault. -/
def PointValues.algebra (k : BaseField) : Algebra k (Except Fault (PointValues k)) where
  constant c := PointValues.constant c.felt 1
  sum p q := do (← p).add (← q)
  difference p q := do (← p).sub (← q)
  product p q := do (← p).mul (← q)
  scaled p c := return (← p).scale c.felt
  power p n := do (← p).pow n

namespace PolyColumns

variable {P : Type}

/-- The shifted columns of the variables of a list that have a rotation. -/
def shifted (t : PolyColumns P) (vars : List Variable) : Except Fault (List (Variable × P)) :=
  (vars.filter (·.rotation ≠ 0)).mapM fun v => return (v, ← t.value v)

/-- The polynomial of a variable, from the shifted columns if it has a rotation. -/
def lookup (t : PolyColumns P) (prepared : List (Variable × P)) (v : Variable) : Except Fault P :=
  if v.rotation = 0 then t.unshifted v
  else match prepared.lookup v with
    | some p => .ok p
    | none => .error (.missingShift v)

end PolyColumns

namespace Expr

/-- The constraint as a polynomial, from the columns of a table. -/
def overColumns {P : Type} (e : Expr k) (A : Algebra k (Except Fault P)) (t : PolyColumns P) :
    Except Fault P := do
  let prepared ← t.shifted e.distinctVariables
  Id.run (e.evaluate A fun v => pure (t.lookup prepared v))

/-- The constraint as a polynomial in coefficient form. -/
def polynomial (e : Expr k) (t : PolyColumns (Poly k)) : Except Fault (Poly k) :=
  e.overColumns (Poly.algebra k) t

/-- The constraint as a polynomial in point-value form. -/
def pointValues (e : Expr k) (t : PolyColumns (PointValues k)) : Except Fault (PointValues k) :=
  e.overColumns (PointValues.algebra k) t

end Expr

/-- The constraints of a gate, each multiplied by the column of the selector. -/
def Gate.selected (g : Gate k) (t : PolyColumns (PointValues k)) :
    Except Fault (List (PointValues k)) := do
  let selector ← t.column .selector g.selector
  g.constraints.mapM fun constraint => do selector.mul (← constraint.pointValues t)

end Plonkish
