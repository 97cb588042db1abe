import Plonkish.Circuit.Basic
import Plonkish.Gadget.Layout
import Plonkish.Json.Stored

/-!
# JSON text — gates, copy constraints and layouts

A gate has `selector_index` and `constraints`, a copy constraint `first` and `second`, and a layout
`witness`, `constant` and `public_input`.  None of them is checked.
-/

namespace Plonkish

variable {k : BaseField}

/-- A gate as it is written. -/
structure Stored.Gate (k : BaseField) where
  /-- The column of the selector region that enables the gate. -/
  selector : Nat
  /-- The constraints. -/
  constraints : List (Stored.Expr k)
deriving Repr

/-- The gate that a stored one denotes. -/
def Stored.Gate.toGate (g : Stored.Gate k) : Plonkish.Gate k :=
  ⟨g.selector, g.constraints.map Stored.Expr.toExpr⟩

/-- The gate as it is written. -/
def Gate.stored (g : Gate k) : Stored.Gate k := ⟨g.selector, g.constraints.map Expr.stored⟩

namespace Json

/-- Reads a gate. -/
def readGate (depth : Nat) : Reader (Stored.Gate k) :=
  record depth
    [field "selector_index" (unsigned 64) fun selector g => { g with selector },
      field "constraints" (listOf (depth - 1) (readExpr (depth - 2))) fun constraints g =>
        { g with constraints }]
    ⟨0, []⟩

/-- Reads a copy constraint. -/
def readCopy (depth : Nat) : Reader CopyConstraint :=
  record depth
    [field "first" (readVariable (depth - 1)) fun first c => { c with first },
      field "second" (readVariable (depth - 1)) fun second c => { c with second }]
    ⟨⟨.witness, 0, 0, true⟩, ⟨.witness, 0, 0, true⟩⟩

/-- Reads a layout. -/
def readLayout (depth : Nat) : Reader Layout :=
  let columns : Reader (List UInt32) :=
    listOf (depth - 1) (return UInt32.ofNat (← unsigned 32))
  record depth
    [field "witness" columns fun witness l => { l with witness },
      field "constant" columns fun constant l => { l with constant },
      field "public_input" columns fun publicInput l => { l with publicInput }]
    ⟨[], [], []⟩

/-- The text of a gate. -/
def gateText (g : Stored.Gate k) : String :=
  objectText
    [("selector_index", toString g.selector),
      ("constraints", listText (g.constraints.map exprText))]

/-- The text of a copy constraint. -/
def copyText (c : CopyConstraint) : String :=
  objectText [("first", variableText c.first), ("second", variableText c.second)]

/-- The text of a layout. -/
def layoutText (l : Layout) : String :=
  let columns (l : List UInt32) : String := listText (l.map fun c => toString c.toNat)
  objectText
    [("witness", columns l.witness), ("constant", columns l.constant),
      ("public_input", columns l.publicInput)]

end Json

end Plonkish
