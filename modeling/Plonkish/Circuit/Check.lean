import Plonkish.Circuit.Constraint
import Plonkish.Expr.Text

/-!
# Circuits — checking a table

`Circuit.violations` lists what a table does wrong: for each gate, and each row where its selector
is enabled, the constraints that do not vanish or that name a cell the table does not have, and then
the copy constraints whose cells differ or do not exist.  The list is empty exactly when the table
satisfies the circuit.  A constraint vanishes where its value is the scalar zero; over BabyBear that
is the word zero, and not another word of the element zero.
-/

namespace Plonkish

variable {k : BaseField}

/-- A way in which a table does not satisfy a circuit. -/
inductive Violation (k : BaseField) where
  /-- A constraint of an enabled gate has a nonzero value. -/
  | constraint (selector row index : Nat) (constraint : Expr k) (value : Scalar k)
  /-- A constraint of an enabled gate names a cell that does not exist. -/
  | cell (selector row : Nat) (error : TableError)
  /-- The cells of a copy constraint differ. -/
  | copy (constraint : CopyConstraint) (first second : Felt k)
  /-- A cell of a copy constraint does not exist. -/
  | copyCell (constraint : CopyConstraint) (error : TableError)

/-- The text of a copy constraint. -/
def CopyConstraint.text (c : CopyConstraint) : String :=
  "copy constraint " ++ toString c.first ++ " = " ++ toString c.second

/-- The text of a violation. -/
def Violation.message : Violation k → String
  | constraint selector row index e value =>
    s!"gate {selector} constraint {index} does not vanish at row {row}: {e} = {value}"
  | cell selector row error => s!"gate {selector} at row {row}: " ++ error.message
  | copy c first second => c.text ++ s!" violated: {first} != {second}"
  | copyCell c error => c.text ++ ": " ++ error.message

/-- What the constraint at a place of a gate violates on a row. -/
def Gate.violationAt (g : Gate k) (t : Table k) (row : Nat) (constraint : Expr k × Nat) :
    Except Fault (Option (Violation k)) :=
  match constraint.1.tryAtRow t row with
  | .ok a =>
    return if a = 0 then none
      else some (.constraint g.selector row constraint.2 constraint.1 a)
  | .error (.refused e) => return some (.cell g.selector row e)
  | .error (.fault f) => throw f

/-- What a gate violates on a row. -/
def Gate.violations (g : Gate k) (t : Table k) (row : Nat) : Except Fault (List (Violation k)) :=
  if t.enabled g.selector row then
    return (← g.constraints.zipIdx.mapM (g.violationAt t row)).filterMap id
  else return []

/-- The value of a cell, and a refusal as a value. -/
def Table.cellOrRefusal (t : Table k) (v : Variable) : Except Fault (Except TableError (Felt k)) :=
  match t.tryValue v with
  | .ok a => return .ok a
  | .error (.refused e) => return .error e
  | .error (.fault f) => throw f

/-- What a copy constraint violates. -/
def CopyConstraint.violation (c : CopyConstraint) (t : Table k) :
    Except Fault (Option (Violation k)) := do
  let first ← t.cellOrRefusal c.first
  let second ← t.cellOrRefusal c.second
  match first, second with
  | .ok a, .ok b => return if a = b then none else some (.copy c a b)
  | .error e, _ => return some (.copyCell c e)
  | _, .error e => return some (.copyCell c e)

namespace Circuit

/-- What the gates violate, gate by gate and row by row.  A gate whose selector has no column is
enabled nowhere. -/
def gateViolations (c : Circuit k) (t : Table k) : Except Fault (List (Violation k)) := do
  let gates ← c.gates.toList.mapM fun g => do
    if g.selector < t.width .selector then
      return (← (List.range t.rows).mapM (g.violations t)).flatten
    else return []
  return gates.flatten

/-- What the copy constraints violate. -/
def copyViolations (c : Circuit k) (t : Table k) : Except Fault (List (Violation k)) := do
  return (← c.copies.toList.mapM (·.violation t)).filterMap id

/-- Everything a table violates: the gates, and then the copy constraints. -/
def violations (c : Circuit k) (t : Table k) : Except Fault (List (Violation k)) := do
  let gates ← c.gateViolations t
  let copies ← c.copyViolations t
  return gates ++ copies

/-- Faults unless the table satisfies the circuit. -/
def assertSatisfied (c : Circuit k) (t : Table k) : Except Fault Unit := do
  let violations ← c.violations t
  if violations.isEmpty then return () else throw (.unsatisfied violations.length)

end Circuit

end Plonkish
