import Plonkish.Gadget.Arithmetic
import Plonkish.Gadget.Assembly
import Plonkish.Gadget.Logic
import Plonkish.Gadget.Points

/-!
# Gadgets — one row

A `RowKind` is what a gadget that takes a single row computes: an arithmetic operation, the product
with a constant, a logic operation or the sum of two points.  Its inputs stand in the first witness
columns, and `RowKind.cells` computes all the cells of the row from them.  `RowKind.constraints` are
the equations between the witness columns `w 0`, `w 1`, … and the constant columns `c 0`, ….
-/

namespace Plonkish

/-- The gadgets that take a single row. -/
inductive RowKind (k : BaseField) where
  /-- An operation on two elements. -/
  | arithmetic (op : Arithmetic)
  /-- The product with a constant, which a constant column holds. -/
  | scaling (factor : Felt k)
  /-- An operation on truth values. -/
  | logic (op : Logic)
  /-- The sum of two points. -/
  | points
deriving DecidableEq, Repr

namespace RowKind

variable {k : BaseField}

/-- The name of a gadget. -/
def name : RowKind k → String
  | arithmetic op => op.name
  | scaling _ => "mul_by_constant"
  | logic op => op.name
  | points => "unified_addition"

/-- The number of input cells. -/
def arity : RowKind k → Nat
  | arithmetic _ => 2
  | scaling _ => 1
  | logic op => op.arity
  | points => 4

/-- The number of witness columns. -/
def width : RowKind k → Nat
  | arithmetic op => op.width
  | scaling _ => 2
  | logic op => op.arity + 1
  | points => Point.width

/-- The number of constant columns. -/
def constantWidth : RowKind k → Nat
  | scaling _ => 1
  | _ => 0

/-- The witness columns that hold the result. -/
def results : RowKind k → List Nat
  | arithmetic _ => [2]
  | scaling _ => [1]
  | logic op => [op.arity]
  | points => [4, 5]

/-- The equations between the witness columns `w` and the constant columns `c`. -/
def constraints (w c : Nat → Expr k) : RowKind k → List (Expr k)
  | arithmetic op => op.constraints w
  | scaling _ => [w 0 * c 0 - w 1]
  | logic op => [op.equation w]
  | points => Point.constraints w

/-- The cells of the row for given inputs. -/
def cells (kind : RowKind k) (inputs : List (Felt k)) : Except GadgetError (List (Felt k)) :=
  match kind, inputs with
  | arithmetic op, [x, y] =>
    return x :: y :: (← (op.cells x y).mapError (.input op.name))
  | scaling factor, [x] => return [x, x * factor]
  | logic op, inputs =>
    match inputs.find? fun a => a ≠ 0 ∧ a ≠ 1 with
    | some a => throw (.input op.name (.notBit a.val))
    | none => return inputs ++ [← (op.result inputs).mapError .fault]
  | points, [px, py, qx, qy] => do
    let p : Point k := ⟨px, py⟩
    let q : Point k := ⟨qx, qy⟩
    match ← (p.add q).mapError .fault with
    | some r => (Point.cells p q r).mapError .fault
    | none => throw (.input kind.name (.unrelatedPoints p.x.val))
  | kind, inputs => throw (.input kind.name (.inputCount kind.arity inputs.length))

/-- Writes the row of a gadget with the given inputs, all of which are read first. -/
def assign (kind : RowKind k) (l : Layout) (inputs : List Variable) (row : Nat) : Build k Unit := do
  if inputs.length ≠ kind.arity then
    throw (.input kind.name (.inputCount kind.arity inputs.length))
  let values ← inputs.mapM Build.read
  let cells ← Build.ofExcept (kind.cells values)
  Build.writeRow l row 0 cells

/-- The constraints on the columns of a layout. -/
def constraintsOn (kind : RowKind k) (l : Layout) : List (Expr k) :=
  kind.constraints
    (fun i => Variable.relativeTo .witness (l.witness.getD i 0) 0)
    (fun i => Variable.relativeTo .constant (l.constant.getD i 0) 0)

/-- Copies the inputs into the first witness cells of the row. -/
def copyInputs (l : Layout) (row : Nat) : Nat → List Variable → Build k Unit
  | _, [] => return ()
  | i, v :: inputs => do
    Build.addCopy v (← Build.ofFault (l.witnessCell i row))
    copyInputs l row (i + 1) inputs

end RowKind

end Plonkish
