import Plonkish.Poly.Product
import Plonkish.Table.Basic

/-!
# Tables — columns as polynomials

A column of a table whose height is the size of a domain is a polynomial: the one that takes the
values of the column over the domain, row by row.  `PolyColumns P` holds the columns of a table as
polynomials in the form `P`, and knows how to shift one.

`Table.interpolated` gives them in coefficient form over a domain of the height of the table, and
`Table.pointValues` in point-value form.  `PolyColumns.value` is the polynomial of a variable: the
column shifted by the rotation, whether the variable is relative or not.
-/

namespace Plonkish

/-- The columns of a table in some polynomial form. -/
structure PolyColumns (P : Type) where
  /-- The number of rows. -/
  rows : Nat
  /-- The columns of each region. -/
  regions : Regions (List P)
  /-- The polynomial whose value in each row is that of another one a number of rows below. -/
  shift : Int → P → Except Fault P

namespace PolyColumns

variable {P : Type}

/-- A column, which has to exist. -/
def column (t : PolyColumns P) (kind : ColumnKind) (index : Nat) : Except Fault P :=
  let columns := t.regions.get kind
  match columns[index]? with
  | some p => .ok p
  | none => .error (.table (.columnOutOfRange kind index columns.length))

/-- The column of a variable. -/
def unshifted (t : PolyColumns P) (v : Variable) : Except Fault P := t.column v.kind v.index.toNat

/-- The column of a variable, shifted by its rotation. -/
def value (t : PolyColumns P) (v : Variable) : Except Fault P := do
  let p ← t.unshifted v
  if v.rotation = 0 then return p else t.shift v.rotation.toInt p

end PolyColumns

namespace Table

variable {k : BaseField}

/-- The columns in coefficient form, over a domain of the height of the table. -/
def interpolated (t : Table k) (d : Domain k) : Except Fault (PolyColumns (Poly k)) :=
  if d.size ≠ t.rows then .error .domainHeight
  else return {
    rows := d.size
    regions := ← t.regions.mapM fun m => do (← m.columns).mapM Poly.interpolate
    shift := fun rotation p => .ok (p.rotated rotation d) }

/-- The columns in point-value form. -/
def pointValues (t : Table k) : Except Fault (PolyColumns (PointValues k)) :=
  let ofColumn := fun values =>
    if t.rows = 0 then .error .overflow else PointValues.ofValues (t.rows - 1) values
  return {
    rows := t.rows
    regions := ← t.regions.mapM fun m => do (← m.columns).mapM ofColumn
    shift := fun rotation p => p.rotated rotation t.rows }

end Table

end Plonkish
