import Plonkish.Gadget.Assembly

/-!
# Gadgets — bits and running sums

A `BitRows` lays a list of bits out over rows, most significant first.  With `k` columns for bits,
a row holds a running sum in column 0, `k` bits in columns 1 to `k`, and in column `k + 1` the sum
after these bits: the first sum times `2 ^ k`, plus the number the bits are the digits of.  The
first row starts from zero, and every other one from the last sum of the row above.  Where `k` does
not divide the number of bits, the first row starts with zeros, its `padding`.

`BitRows.cells` are the cells of the bits and `BitRows.sumCell` the cell of the whole number.
`BitRows.assign` writes the rows; the constraints for the first row and for the others are
`BitRows.constraints`.
-/

namespace Plonkish

/-- The order bits are listed in. -/
inductive BitOrder where
  /-- The most significant bit comes first. -/
  | mostSignificantFirst
  /-- The least significant bit comes first. -/
  | leastSignificantFirst
deriving DecidableEq, Repr

/-- A list with the most significant entry first, in a given order. -/
def BitOrder.arrange {α : Type} (order : BitOrder) (l : List α) : List α :=
  match order with
  | mostSignificantFirst => l
  | leastSignificantFirst => l.reverse

/-- The most bits a gadget can have. -/
def maxBits : Nat := 64

/-- Bits laid out over rows, with running sums. -/
structure BitRows where
  /-- The name of the gadget. -/
  name : String
  /-- The columns. -/
  layout : Layout
  /-- The number of bits. -/
  bits : Nat
  /-- Whether the constraints ask for bits to be zero or one. -/
  checked : Bool
  /-- There are columns for the sums and for a bit. -/
  three_le : 3 ≤ layout.witness.length
  /-- There is a bit. -/
  bits_pos : 0 < bits
  /-- There are no more bits than an element can need. -/
  bits_le : bits ≤ maxBits

namespace BitRows

variable {k : BaseField}

/-- The rows for a number of bits, on a layout with columns for them. -/
def new (name : String) (layout : Layout) (bits : Nat) (checked : Bool) :
    Except GadgetError BitRows := do
  layout.check name 3 0
  if h : 3 ≤ layout.witness.length ∧ 0 < bits ∧ bits ≤ maxBits then
    return ⟨name, layout, bits, checked, h.1, h.2.1, h.2.2⟩
  else throw (.input name (.bitsAmount bits maxBits))

/-- The number of bits in a row. -/
def perRow (b : BitRows) : Nat := b.layout.witness.length - 2

/-- The number of rows. -/
def rows (b : BitRows) : Nat := (b.bits + b.perRow - 1) / b.perRow

/-- The number of zeros before the first bit. -/
def padding (b : BitRows) : Nat := b.rows * b.perRow - b.bits

/-- The column of the sum after the bits of a row. -/
def sumColumn (b : BitRows) : Nat := b.perRow + 1

/-! ### Constraints -/

/-- A witness column of the layout, some rows away. -/
def column (b : BitRows) (i : Nat) (rotation : Int32) : Expr k :=
  Variable.relativeTo .witness (b.layout.witness.getD i 0) rotation

/-- The sum after the bits of a row. -/
def rowSum (b : BitRows) : Expr k :=
  let power (i : Nat) : Expr k := .constant ((Felt.ofNat 2 : Felt k) ^ i)
  (List.range' 1 b.perRow).foldl (fun acc j => acc + power (b.perRow - j) * b.column j 0)
    (b.column 0 0 * power b.perRow)

/-- The constraints of the first row, or of every other one. -/
def constraints (b : BitRows) (first : Bool) : List (Expr k) :=
  let w (i : Nat) : Expr k := b.column i 0
  let sum := b.rowSum - w b.sumColumn
  let start :=
    if first then w 0 :: (List.range' 1 b.padding).map w
    else [w 0 - b.column b.sumColumn (-1)]
  let bits :=
    if b.checked then (List.range' 1 b.perRow).map fun j => w j * (.constant 1 - w j) else []
  sum :: start ++ bits

/-- Registers the gate of the first row, and that of the others if there are any. -/
def gates (b : BitRows) : Build k (List Nat) := do
  let first ← Build.addGate (b.constraints true)
  if 1 < b.rows then return [first, ← Build.addGate (b.constraints false)] else return [first]

/-- Enables the first selector on the first row, and the second one on the others. -/
def enable (b : BitRows) (selectors : List Nat) (start : Nat) : Build k Unit :=
  match selectors with
  | [] => throw (.fault .indexOutOfRange)
  | first :: others => do
    Build.enable first start
    match others with
    | [] => return ()
    | next :: _ => do
      let second ← Build.ofFault (Count.add start 1)
      let last ← Build.ofFault (Count.add start b.rows)
      Build.enableRange next second (last - 1)

/-! ### Cells -/

/-- The cells of the bits, most significant first. -/
def cells (b : BitRows) (start : Nat) : Except Fault (List Variable) :=
  (List.range' b.padding b.bits).mapM fun slot => do
    b.layout.witnessCell (slot % b.perRow + 1) (← Count.add start (slot / b.perRow))

/-- The cell of the number the bits are the digits of. -/
def sumCell (b : BitRows) (start : Nat) : Except Fault Variable := do
  b.layout.witnessCell b.sumColumn ((← Count.add start b.rows) - 1)

/-- The sum after a bit. -/
def nextSum (sum : Felt k) (bit : Bool) : Felt k := sum + sum + Felt.ofBool bit

/-- Writes the bits of a row from column `j` on, and gives the sum after them. -/
def assignBits (b : BitRows) (row : Nat) : Nat → Felt k → List Bool → Build k (Felt k)
  | _, sum, [] => return sum
  | j, sum, bit :: bits => do
    Build.writeWitness b.layout j row (Felt.ofBool bit)
    assignBits b row (j + 1) (nextSum sum bit) bits

/-- Writes a row that starts from a given sum, and gives the sum after its bits. -/
def assignRow (b : BitRows) (row : Nat) (sum : Felt k) (bits : List Bool) : Build k (Felt k) := do
  Build.writeWitness b.layout 0 row sum
  let sum ← b.assignBits row 1 sum bits
  Build.writeWitness b.layout b.sumColumn row sum
  return sum

/-- The bits of a row, when the bits of all rows are given, most significant first. -/
def slots (b : BitRows) (bits : List Bool) (r : Nat) : List Bool :=
  ((List.replicate b.padding false ++ bits).drop (r * b.perRow)).take b.perRow

/-- Writes the rows for a list of bits, most significant first, and gives the number they are the
digits of. -/
def assign (b : BitRows) (bits : List Bool) (start : Nat) : Build k (Felt k) :=
  (List.range b.rows).foldlM
    (fun sum r => do b.assignRow (← Build.ofFault (Count.add start r)) sum (b.slots bits r)) 0

/-- The binary digits of an element that has no more than there are bits, most significant first.
No element has more than `maxBits`, and it cannot be shifted by as many. -/
def digits (b : BitRows) (a : Felt k) : Except GadgetError (List Bool) := do
  if b.bits < maxBits then
    let rest ← (Count.shiftRight a.val b.bits).mapError .fault
    if rest ≠ 0 then throw (.input b.name (.tooWide a.val b.bits))
  return (← (a.digits b.bits).mapError .fault).reverse

/-- The truth value of an input bit. -/
def ofInput (b : BitRows) (a : Felt k) : Except GadgetError Bool :=
  if a = 0 then .ok false
  else if a = 1 then .ok true
  else .error (.input b.name (.notBit a.val))

end BitRows

end Plonkish
