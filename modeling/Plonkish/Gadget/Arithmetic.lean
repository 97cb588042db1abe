import Plonkish.Expr.Basic
import Plonkish.Gadget.Layout

/-!
# Gadgets — arithmetic

An operation on two cells takes one row: the operands in the first two columns, the result in the
third, and for the two divisions the inverse of the divisor in the fourth.  `Arithmetic.cells`
computes the cells after the operands, and `Arithmetic.constraints` are the equations between the
columns `w 0`, `w 1`, ….

Division asks for an inverse of the divisor, which zero does not have.  Division or zero asks for a
number `i` with `y * (y * i - 1) = 0` and `i * (y * i - 1) = 0`, which is the inverse of `y`, or
zero.
-/

namespace Plonkish

/-- The operations on two elements. -/
inductive Arithmetic where
  /-- The sum. -/
  | addition
  /-- The difference. -/
  | subtraction
  /-- The product. -/
  | multiplication
  /-- The quotient by a nonzero divisor. -/
  | division
  /-- The quotient, and zero for the divisor zero. -/
  | divisionOrZero
deriving DecidableEq, Repr

namespace Arithmetic

variable {k : BaseField}

/-- All operations. -/
def all : List Arithmetic := [addition, subtraction, multiplication, division, divisionOrZero]

/-- The name of an operation. -/
def name : Arithmetic → String
  | addition => "addition"
  | subtraction => "subtraction"
  | multiplication => "multiplication"
  | division => "division"
  | divisionOrZero => "division_or_zero"

/-- The number of witness columns. -/
def width : Arithmetic → Nat
  | addition | subtraction | multiplication => 3
  | division | divisionOrZero => 4

/-- The cells after the operands: the result, and the inverse that a division uses. -/
def cells (x y : Felt k) : Arithmetic → Except InputProblem (List (Felt k))
  | addition => .ok [x + y]
  | subtraction => .ok [x - y]
  | multiplication => .ok [x * y]
  | division =>
    match y.inverse? with
    | some i => .ok [x * i, i]
    | none => .error .divisionByZero
  | divisionOrZero => .ok [x * y.inverse, y.inverse]

/-- The equations between the columns. -/
def constraints (w : Nat → Expr k) : Arithmetic → List (Expr k)
  | addition => [w 0 + w 1 - w 2]
  | subtraction => [w 0 - w 1 - w 2]
  | multiplication => [w 0 * w 1 - w 2]
  | division => [w 1 * w 2 - w 0, w 1 * w 3 - .constant 1]
  | divisionOrZero =>
    let isInverse := w 1 * w 3 - .constant 1
    [w 0 * w 3 - w 2, w 1 * isInverse, w 3 * isInverse]

/-- The equations between the columns of a layout, which has to have enough of them. -/
def constraintsOn (k : BaseField) (op : Arithmetic) (l : Layout) :
    Except Fault (List (Expr k)) := do
  let columns ← (List.range op.width).mapM l.witnessAt
  return op.constraints fun i =>
    ((Variable.relativeTo .witness (columns.getD i 0) 0 : Variable) : Expr k)

end Arithmetic

end Plonkish
