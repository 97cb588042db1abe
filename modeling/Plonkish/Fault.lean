import Plonkish.Field.Basic
import Plonkish.Variable

/-!
# Faults — calls without an answer

Two things can go wrong.  A `TableError` is an answer: the caller asked for a cell or a shape that
does not exist, and is told so.  A `Fault` is the end of a call whose precondition was broken; it
has no answer.  `Failure` is either.  Most faults carry a text, `Fault.message`; running out of
bits or of memory, indexing outside a list, and a bare assertion do not.

Sizes, indices and degrees are held in 64 bits, so the arithmetic on them in `Count` faults
where a result does not fit.
-/

namespace Plonkish

/-- Why a table, or a description of one, refuses a request. -/
inductive TableError where
  /-- The region has only `available` columns. -/
  | columnOutOfRange (kind : ColumnKind) (index available : Nat)
  /-- The table has only `rows` rows. -/
  | rowOutOfRange (row rows : Nat)
  /-- An absolute variable names a row below zero. -/
  | negativeRow (v : Variable)
  /-- The height is not a power of two. -/
  | rowsNotPowerOfTwo (rows : Nat)
deriving DecidableEq, Repr

/-- The text of a refusal. -/
def TableError.message : TableError → String
  | columnOutOfRange kind index available =>
    kind.name ++ s!" column {index} out of range, table has {available}"
  | rowOutOfRange row rows => s!"row {row} out of range, table has {rows} rows"
  | negativeRow v => s!"{v} names a negative row"
  | rowsNotPowerOfTwo rows => s!"rows amount {rows} is not a power of two"

/-- The broken precondition that ends a call. -/
inductive Fault where
  /-- A count does not fit in 64 bits, or a list not in memory. -/
  | overflow
  /-- A list has no element at the index. -/
  | indexOutOfRange
  /-- An assertion without a text. -/
  | assertion
  /-- Zero was to be inverted. -/
  | inverseOfZero
  /-- The size of a domain is not a power of two. -/
  | domainSize (size : Nat)
  /-- The field has no subgroup of order `2 ^ log`. -/
  | noSubgroup (field : BaseField) (log : Nat)
  /-- Too few evaluations, or not a power of two of them. -/
  | evaluations (count degree : Nat)
  /-- The new number of points does not hold the degree. -/
  | resize (degree points : Nat)
  /-- The number of points is not a multiple of the domain. -/
  | domainMultiple (points domain : Nat)
  /-- A rotation needs at least one row. -/
  | emptyRotation
  /-- The row of an absolute variable is too large for a rotation. -/
  | absoluteRow (row : Nat)
  /-- A variable has no value. -/
  | missingVariable (v : Variable)
  /-- A shifted column was not prepared. -/
  | missingShift (v : Variable)
  /-- A domain and a table differ in height. -/
  | domainHeight
  /-- A copy constraint names a relative variable. -/
  | relativeCopy
  /-- A circuit was asserted to be satisfied and is not. -/
  | unsatisfied (violations : Nat)
  /-- The table refuses a request that was promised to be met. -/
  | table (error : TableError)
deriving DecidableEq, Repr

/-- The text of a fault, for those that have one. -/
def Fault.message : Fault → Option String
  | overflow | indexOutOfRange | assertion => none
  | inverseOfZero => some "Tried to invert zero"
  | domainSize size => some s!"evaluation domain size {size} is not a power of two"
  | noSubgroup field log => some (field.name ++ s!" has no subgroup of order 2^{log}")
  | evaluations count degree =>
    some s!"{count} evaluations cannot hold a polynomial of degree {degree}"
  | resize degree points =>
    some s!"cannot resize a degree {degree} polynomial to {points} points"
  | domainMultiple points domain =>
    some s!"evaluation size {points} is not a multiple of the domain size {domain}"
  | emptyRotation => some "cannot rotate inside an empty table"
  | absoluteRow row => some s!"row {row} is too large for an absolute variable"
  | missingVariable v => some s!"no value for variable {v} in the evaluation map"
  | missingShift v => some s!"no cached rotation for {v}"
  | domainHeight => some "domain size must equal the rows amount"
  | relativeCopy => some "copy constraints take absolute cells"
  | unsatisfied violations => some s!"mock prover found {violations} errors"
  | table error => some error.message

/-- The end of a call that may be refused as well as fault. -/
inductive Failure where
  /-- The call answers that the request cannot be met. -/
  | refused (error : TableError)
  /-- The call has no answer. -/
  | fault (fault : Fault)
deriving DecidableEq, Repr

/-- The fault of a call that promised not to be refused. -/
def Failure.asFault : Failure → Fault
  | refused error => .table error
  | fault f => f

/-- The inverse of a divisor, as a factor. -/
def Felt.div {k : BaseField} (a b : Felt k) : Except Fault (Felt k) :=
  if b = 0 then .error .inverseOfZero else .ok (a * b.inverse)

/-! ### Counts -/

namespace Count

/-- A count that fits in 64 bits. -/
def check (n : Nat) : Except Fault Nat := if n < 1 <<< 64 then .ok n else .error .overflow

/-- The sum of two counts. -/
def add (a b : Nat) : Except Fault Nat := check (a + b)

/-- The product of two counts. -/
def mul (a b : Nat) : Except Fault Nat := check (a * b)

/-- A count shifted right, by fewer places than the 64 it is held in. -/
def shiftRight (n places : Nat) : Except Fault Nat :=
  if places < 64 then .ok (n >>> places) else .error .overflow

/-- A number of entries of some bytes each that can be held: they take fewer than `2 ^ 63` bytes. -/
def entries (bytes n : Nat) : Except Fault Nat :=
  if n * bytes < 1 <<< 63 then .ok n else .error .overflow

/-- A number of elements whose words can be held. -/
def held (k : BaseField) (n : Nat) : Except Fault Nat := entries k.wordBytes n

/-- The bytes of an entry that is a list itself. -/
def listBytes : Nat := 24

/-- A count is a power of two when it is the one its logarithm names. -/
abbrev IsPowerOfTwo (n : Nat) : Prop := 1 <<< n.log2 = n

/-- The least power of two that is at least `n`. -/
def leastPower (n : Nat) : Nat := if n ≤ 1 then 1 else 1 <<< ((n - 1).log2 + 1)

/-- The least power of two that is at least `n`, if it fits. -/
def nextPowerOfTwo (n : Nat) : Except Fault Nat := check (leastPower n)

/-- The least power of two that holds `n` values, at least one. -/
def domainFor (n : Nat) : Except Fault Nat := nextPowerOfTwo (max n 1)

end Count

/-- The binary digit of an element at a place, counted from the least significant one.  No element
has more than 64 of them, so the others are zero without a shift. -/
def Felt.digit {k : BaseField} (a : Felt k) (place : Nat) : Except Fault Bool := do
  if place < 64 then return (← Count.shiftRight a.val place) % 2 = 1 else return false

/-- The `n` least significant binary digits of an element, least significant first, if they can be
held with a byte each. -/
def Felt.digits {k : BaseField} (a : Felt k) (n : Nat) : Except Fault (List Bool) := do
  (List.range (← Count.entries 1 n)).mapM a.digit

/-- The generator of the subgroup of order `2 ^ bits`, if the field has one. -/
def BaseField.generator? (k : BaseField) (bits : Nat) : Except Fault (Felt k) :=
  if bits ≤ k.twoAdicity then .ok (k.generator bits) else .error .assertion

namespace Variable

/-- The variable at a fixed row. -/
def absolute (kind : ColumnKind) (index : UInt32) (row : Nat) : Except Fault Variable :=
  match absolute? kind index row with
  | some v => .ok v
  | none => .error (.absoluteRow row)

/-- The row `rotation` below `row` in a table that wraps around after `rows` rows.  Both rows are
read as signed 64-bit numbers, and so is their sum. -/
def rotatedRow (rows row : Nat) (rotation : Int32) : Except Fault Nat :=
  if rows = 0 then .error .emptyRotation else
    let sum := Int.bmod row (1 <<< 64) + rotation.toInt
    let height := Int.bmod rows (1 <<< 64)
    if sum < -0x8000000000000000 ∨ 0x8000000000000000 ≤ sum then .error .overflow
    else if sum = -0x8000000000000000 ∧ height = -1 then .error .overflow
    else .ok (sum % height).toNat

/-- The row a variable reads from the anchor `row`.  A relative one wraps around the table; an
absolute one names its row as it is, and none if that is negative. -/
def row (v : Variable) (anchor rows : Nat) : Except Fault (Option Nat) :=
  if v.relative then return some (← rotatedRow rows anchor v.rotation)
  else if v.rotation.toInt < 0 then .ok none
  else .ok (some v.rotation.toInt.toNat)

end Variable

end Plonkish
