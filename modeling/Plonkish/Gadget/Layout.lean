import Plonkish.Fault

/-!
# Gadgets — layouts

A gadget numbers the columns it uses from zero, region by region.  A `Layout` says which columns of
a table these are.  `Layout.check` refuses a layout that has too few; `GadgetError` lists all that
can go wrong with a gadget.

`witnessVar` and `constantVar` name columns relative to the row a constraint is anchored at, and
`witnessCell` and `constantCell` a cell at a fixed row.
-/

namespace Plonkish

/-- What is wrong with the input of a gadget.  Elements are given by their representatives. -/
inductive InputProblem where
  /-- The divisor is zero. -/
  | divisionByZero
  /-- The number of bits is not one that a gadget can have. -/
  | bitsAmount (bits limit : Nat)
  /-- The number of input cells is wrong. -/
  | inputCount (expected actual : Nat)
  /-- The number of input bits is wrong. -/
  | bitCount (expected actual : Nat)
  /-- An input is neither zero nor one. -/
  | notBit (value : Nat)
  /-- An input has more binary digits than the gadget. -/
  | tooWide (value bits : Nat)
  /-- Two points have this `x` and no sum. -/
  | unrelatedPoints (x : Nat)
deriving DecidableEq, Repr

/-- The text of an input problem. -/
def InputProblem.message : InputProblem → String
  | divisionByZero => "division by zero"
  | bitsAmount bits limit => s!"bits amount {bits} not in 1..={limit}"
  | inputCount expected actual => s!"expected {expected} inputs, got {actual}"
  | bitCount expected actual => s!"expected {expected} bits, got {actual}"
  | notBit value => s!"{value} is not a bit"
  | tooWide value bits => s!"{value} does not fit in {bits} bits"
  | unrelatedPoints x => s!"points with x = {x} are neither equal nor opposite"

/-- Why a gadget is not made, or not placed. -/
inductive GadgetError where
  /-- The layout has too few columns of a region. -/
  | layout (gadget region : String) (required available : Nat)
  /-- The input is not one the gadget takes. -/
  | input (gadget : String) (problem : InputProblem)
  /-- The table does not have a cell. -/
  | refused (error : TableError)
  /-- The call has no answer. -/
  | fault (fault : Fault)
deriving DecidableEq, Repr

/-- The error of a call that the table refused or that faulted. -/
def GadgetError.ofFailure : Failure → GadgetError
  | .refused e => refused e
  | .fault f => fault f

/-- The text of an error, for those that have one. -/
def GadgetError.message : GadgetError → Option String
  | layout gadget region required available =>
    some (gadget ++ s!" needs {required} " ++ region ++ s!" columns, layout has {available}")
  | input gadget problem => some ("invalid input for " ++ gadget ++ ": " ++ problem.message)
  | refused e => some e.message
  | fault f => f.message

/-- The columns of a table that a gadget uses. -/
structure Layout where
  /-- The columns of the witness region. -/
  witness : List UInt32
  /-- The columns of the constant region. -/
  constant : List UInt32
  /-- The columns of the public input region. -/
  publicInput : List UInt32
deriving DecidableEq, Repr

namespace Layout

/-- The first columns of the witness and constant regions. -/
def contiguous (witness constant : UInt32) : Layout where
  witness := (List.range witness.toNat).map UInt32.ofNat
  constant := (List.range constant.toNat).map UInt32.ofNat
  publicInput := []

/-- The entry of a list of columns. -/
def columnAt (columns : List UInt32) (i : Nat) : Except Fault UInt32 :=
  match columns[i]? with
  | some column => .ok column
  | none => .error .indexOutOfRange

/-- The witness column numbered `i`. -/
def witnessAt (l : Layout) (i : Nat) : Except Fault UInt32 := columnAt l.witness i

/-- The constant column numbered `i`. -/
def constantAt (l : Layout) (i : Nat) : Except Fault UInt32 := columnAt l.constant i

/-- The public input column numbered `i`. -/
def publicInputAt (l : Layout) (i : Nat) : Except Fault UInt32 := columnAt l.publicInput i

/-- The witness column numbered `i`, some rows away from the anchor row. -/
def witnessVar (l : Layout) (i : Nat) (rotation : Int32) : Except Fault Variable :=
  return .relativeTo .witness (← l.witnessAt i) rotation

/-- The constant column numbered `i`, some rows away from the anchor row. -/
def constantVar (l : Layout) (i : Nat) (rotation : Int32) : Except Fault Variable :=
  return .relativeTo .constant (← l.constantAt i) rotation

/-- The cell of the witness column numbered `i` in a row. -/
def witnessCell (l : Layout) (i row : Nat) : Except Fault Variable := do
  Variable.absolute .witness (← l.witnessAt i) row

/-- The cell of the constant column numbered `i` in a row. -/
def constantCell (l : Layout) (i row : Nat) : Except Fault Variable := do
  Variable.absolute .constant (← l.constantAt i) row

/-- Checks that there are enough witness and constant columns. -/
def check (l : Layout) (gadget : String) (witness constant : Nat) : Except GadgetError Unit :=
  if l.witness.length < witness then
    .error (.layout gadget "witness" witness l.witness.length)
  else if l.constant.length < constant then
    .error (.layout gadget "constant" constant l.constant.length)
  else .ok ()

end Layout

end Plonkish
