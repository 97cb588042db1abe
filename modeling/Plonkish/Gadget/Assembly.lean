import Plonkish.Circuit.Basic
import Plonkish.Gadget.Layout
import Plonkish.Table.Basic

/-!
# Gadgets — a circuit and its table

An `Assembly k` is a circuit together with the table it is to be satisfied by.  Placing gadgets
changes both, step by step; a step that fails leaves what the steps before it did.  `Build k α` is
a sequence of steps with a result of type `α`.
-/

namespace Plonkish

/-- A circuit and its table. -/
structure Assembly (k : BaseField) where
  /-- The circuit. -/
  circuit : Circuit k
  /-- The table. -/
  table : Table k

/-- Steps that change an assembly, up to the first that fails. -/
abbrev Build (k : BaseField) := ExceptT GadgetError (StateM (Assembly k))

namespace Build

variable {k : BaseField}

/-- A result that does not depend on the assembly. -/
def ofExcept {α : Type} (result : Except GadgetError α) : Build k α :=
  match result with
  | .ok a => return a
  | .error e => throw e

/-- A result that a fault may take the place of. -/
def ofFault {α : Type} (result : Except Fault α) : Build k α :=
  ofExcept (result.mapError .fault)

/-- A change of the table. -/
def onTable (change : Table k → Except GadgetError (Table k)) : Build k Unit := do
  let table ← ofExcept (change (← get).table)
  modify fun a => { a with table }

/-- The value of a variable, read from the first row. -/
def read (v : Variable) : Build k (Felt k) := do
  ofExcept (((← get).table.tryValue v).mapError .ofFailure)

/-- Writes the witness column numbered `i` of a layout in a row. -/
def writeWitness (l : Layout) (i row : Nat) (a : Felt k) : Build k Unit := do
  let column ← ofFault (l.witnessAt i)
  onTable fun t => (t.trySet .witness column.toNat row a).mapError .refused

/-- Writes the witness columns of a layout in a row, from column `i` on. -/
def writeRow (l : Layout) (row : Nat) : Nat → List (Felt k) → Build k Unit
  | _, [] => return ()
  | i, a :: cells => do
    writeWitness l i row a
    writeRow l row (i + 1) cells

/-- Writes the constant column numbered `i` of a layout in a row. -/
def writeConstant (l : Layout) (i row : Nat) (a : Felt k) : Build k Unit := do
  let cell ← ofFault (l.constantCell i row)
  onTable fun t => (t.trySet cell.kind cell.index.toNat row a).mapError .refused

/-- Registers a gate. -/
def addGate (constraints : List (Expr k)) : Build k Nat := do
  let (selector, circuit) := (← get).circuit.addGate constraints
  modify fun a => { a with circuit }
  return selector

/-- Adds a copy constraint. -/
def addCopy (first second : Variable) : Build k Unit := do
  let circuit ← ofFault ((← get).circuit.addCopy first second)
  modify fun a => { a with circuit }

/-- Enables a selector on a row. -/
def enable (selector row : Nat) : Build k Unit :=
  onTable fun t => (t.tryEnable selector row).mapError .ofFailure

/-- Enables a selector on the rows from `first` to `last`. -/
def enableRange (selector first last : Nat) : Build k Unit := do
  let (table, result) := (← get).table.enableRange selector first last 1
  modify fun a => { a with table }
  ofExcept (result.mapError .ofFailure)

end Build

end Plonkish
