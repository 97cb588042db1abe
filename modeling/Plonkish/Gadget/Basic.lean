import Plonkish.Gadget.Bits
import Plonkish.Gadget.Row

/-!
# Gadgets — placing them

A `Gadget k` is a piece of a circuit that takes some consecutive rows.  Its input is a list of
absolute cells anywhere in the table, which copy constraints tie to its own cells.

* `Gadget.assign` writes the witness of an instance that starts at a given row.
* `Gadget.gates` registers the gates, `Gadget.enable` enables their selectors on the rows of the
  instance, `Gadget.assignConstants` writes the constants and `Gadget.copies` adds the copy
  constraints.  `Gadget.build` does all four, in this order.
* `Gadget.result` names the cells of the output.
* `Gadget.synthesize` assigns and builds an instance.

A decomposition gives the bits of its input, a composition the number its inputs are the digits of,
and a range check only makes sure that its input has no more binary digits than it has bits.
-/

namespace Plonkish

/-- What a gadget made of bit rows is for. -/
inductive BitRole where
  /-- Gives the bits of an element. -/
  | decomposition (order : BitOrder)
  /-- Gives the element with given bits. -/
  | composition (order : BitOrder)
  /-- Bounds an element. -/
  | rangeCheck
deriving DecidableEq, Repr

/-- A reusable piece of a circuit. -/
inductive Gadget (k : BaseField) where
  /-- A gadget that takes a single row. -/
  | row (kind : RowKind k) (layout : Layout)
  /-- A gadget made of bit rows. -/
  | bits (role : BitRole) (rows : BitRows)

namespace Gadget

variable {k : BaseField}

/-! ### Making a gadget -/

/-- A gadget that takes a single row, on a layout that has enough columns for it. -/
def ofRow (kind : RowKind k) (l : Layout) : Except GadgetError (Gadget k) := do
  l.check kind.name kind.width kind.constantWidth
  return row kind l

/-- The gadget that gives the bits of an element. -/
def decomposition (l : Layout) (amount : Nat) (order : BitOrder) : Except GadgetError (Gadget k) :=
  return bits (.decomposition order) (← BitRows.new "bit_decomposition" l amount true)

/-- The gadget that gives the element with given bits.  With `checked` off, its input is trusted to
be bits. -/
def composition (l : Layout) (amount : Nat) (order : BitOrder) (checked : Bool) :
    Except GadgetError (Gadget k) :=
  return bits (.composition order) (← BitRows.new "bit_composition" l amount checked)

/-- The gadget that bounds an element. -/
def rangeCheck (l : Layout) (amount : Nat) : Except GadgetError (Gadget k) :=
  return bits .rangeCheck (← BitRows.new "range_check" l amount true)

/-! ### What a gadget is -/

/-- The name of a gadget. -/
def name : Gadget k → String
  | row kind _ => kind.name
  | bits _ b => b.name

/-- The columns of a gadget. -/
def layout : Gadget k → Layout
  | row _ l => l
  | bits _ b => b.layout

/-- The number of rows a gadget takes. -/
def rows : Gadget k → Nat
  | row _ _ => 1
  | bits _ b => b.rows

/-- The cells of the output of an instance. -/
def result (g : Gadget k) (start : Nat) : Except Fault (List Variable) :=
  match g with
  | row kind l => kind.results.mapM fun i => l.witnessCell i start
  | bits (.decomposition order) b => return order.arrange (← b.cells start)
  | bits (.composition _) b => return [← b.sumCell start]
  | bits .rangeCheck _ => return []

/-! ### Placing a gadget -/

/-- Reads the only input of a gadget that takes one. -/
def readOne (name : String) (input : List Variable) : Build k (Felt k) :=
  match input with
  | [v] => Build.read v
  | _ => throw (.input name (.inputCount 1 input.length))

/-- Writes the witness of an instance. -/
def assignCells (g : Gadget k) (input : List Variable) (start : Nat) : Build k Unit :=
  match g with
  | row kind l => kind.assign l input start
  | bits (.composition order) b => do
    if input.length ≠ b.bits then throw (.input b.name (.bitCount b.bits input.length))
    let values ← input.mapM fun v => do Build.ofExcept (b.ofInput (← Build.read v))
    discard (b.assign (order.arrange values) start)
  | bits _ b => do
    let value ← readOne b.name input
    discard (b.assign (← Build.ofExcept (b.digits value)) start)

/-- Writes the witness of an instance and gives the cells of its output. -/
def assign (g : Gadget k) (input : List Variable) (start : Nat) : Build k (List Variable) := do
  g.assignCells input start
  Build.ofFault (g.result start)

/-- Registers the gates and gives their selectors. -/
def gates (g : Gadget k) : Build k (List Nat) :=
  match g with
  | row kind l => return [← Build.addGate (kind.constraintsOn l)]
  | bits _ b => b.gates

/-- Enables selectors on the rows of an instance. -/
def enable (g : Gadget k) (selectors : List Nat) (start : Nat) : Build k Unit :=
  match g with
  | row _ _ => selectors.forM fun selector => Build.enable selector start
  | bits _ b => b.enable selectors start

/-- Writes the constants of an instance. -/
def assignConstants (g : Gadget k) (start : Nat) : Build k Unit :=
  match g with
  | row (.scaling factor) l => Build.writeConstant l 0 start factor
  | _ => return ()

/-- Copies the only input of a gadget that takes one. -/
def copyOne (name : String) (input : List Variable) (cell : Variable) : Build k Unit :=
  match input with
  | [v] => Build.addCopy v cell
  | _ => throw (.input name (.inputCount 1 input.length))

/-- Adds the copy constraints of an instance. -/
def copies (g : Gadget k) (input : List Variable) (start : Nat) : Build k Unit :=
  match g with
  | row _ l => RowKind.copyInputs l start 0 input
  | bits (.composition order) b => do
    let cells ← Build.ofFault (b.cells start)
    (input.zip (order.arrange cells)).forM fun (v, cell) => Build.addCopy v cell
  | bits _ b => do copyOne b.name input (← Build.ofFault (b.sumCell start))

/-- Adds an instance to the circuit and gives the cells of its output. -/
def build (g : Gadget k) (input : List Variable) (start : Nat) : Build k (List Variable) := do
  let selectors ← g.gates
  g.enable selectors start
  g.assignConstants start
  g.copies input start
  Build.ofFault (g.result start)

/-- Writes the witness of an instance and adds it to the circuit. -/
def synthesize (g : Gadget k) (input : List Variable) (start : Nat) : Build k (List Variable) := do
  let _ ← g.assign input start
  g.build input start

end Gadget

end Plonkish
