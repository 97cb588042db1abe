import Plonkish.Fault
import Plonkish.Json.Shape

/-!
# Tables — descriptions

A `Description` is the shape of an assignment table: the number of columns of each region, the
number of rows that may be filled, and the number of rows the table has.  `Description.padded`
chooses the least power of two, at least 2, that holds the usable rows.  `Description.validate`
asks for a power of two of rows, no fewer than the usable ones.

`Description.ofJson` reads a description from a text.  A height of zero stands for the padded
one; the result is always valid.
-/

namespace Plonkish

/-- The shape of an assignment table. -/
structure Description where
  /-- The number of columns of each region. -/
  columns : Regions Nat
  /-- The number of rows that may be filled. -/
  usableRows : Nat
  /-- The number of rows. -/
  rows : Nat
deriving DecidableEq, Repr

/-- Why a text does not describe a table. -/
inductive DescriptionError where
  /-- The text does not hold a description. -/
  | unreadable (problem : Json.Problem)
  /-- The description is not valid. -/
  | refused (error : TableError)
  /-- The padded height does not fit. -/
  | fault (fault : Fault)
deriving DecidableEq, Repr

namespace Description

/-- The description of a table without cells. -/
def empty : Description := ⟨⟨0, 0, 0, 0⟩, 0, 0⟩

/-- The least power of two that holds the usable rows, at least 2. -/
def paddedRows (usable : Nat) : Except Fault Nat := return max (← Count.nextPowerOfTwo usable) 2

/-- The description with the least height that holds the usable rows. -/
def padded (columns : Regions Nat) (usable : Nat) : Except Fault Description :=
  return ⟨columns, usable, ← paddedRows usable⟩

/-- Checks that the number of rows is a power of two and holds the usable ones. -/
def validate (d : Description) : Except TableError Unit :=
  if ¬ Count.IsPowerOfTwo d.rows then .error (.rowsNotPowerOfTwo d.rows)
  else if d.rows < d.usableRows then .error (.rowOutOfRange d.usableRows d.rows)
  else .ok ()

/-! ### JSON -/

/-- A number of a description. -/
structure JsonField where
  /-- The name in texts. -/
  name : String
  /-- The number. -/
  get : Description → Nat
  /-- The description with another number in its place. -/
  set : Nat → Description → Description

/-- The numbers of a description, in the order that they are written in. -/
def jsonFields : List JsonField :=
  [⟨"witness_columns", (·.columns.witness), fun n d => { d with columns.witness := n }⟩,
    ⟨"public_input_columns", (·.columns.publicInput),
      fun n d => { d with columns.publicInput := n }⟩,
    ⟨"constant_columns", (·.columns.constant), fun n d => { d with columns.constant := n }⟩,
    ⟨"selector_columns", (·.columns.selector), fun n d => { d with columns.selector := n }⟩,
    ⟨"usable_rows_amount", usableRows, fun n d => { d with usableRows := n }⟩,
    ⟨"rows_amount", rows, fun n d => { d with rows := n }⟩]

/-- Reads a number. -/
def JsonField.reader (f : JsonField) : Json.Field Description :=
  Json.field f.name (Json.unsigned 64) f.set

/-- Reads a description, which is not checked. -/
def readJson (depth : Nat) : Json.Reader Description :=
  Json.record depth (jsonFields.map JsonField.reader) empty

/-- The names of the numbers, and the numbers. -/
def jsonNumbers (d : Description) : List (String × Nat) :=
  jsonFields.map fun f => (f.name, f.get d)

/-- The names of the numbers, and their texts. -/
def jsonMembers (d : Description) : List (String × String) :=
  d.jsonNumbers.map fun (name, n) => (name, toString n)

/-- The compact text of a description. -/
def jsonText (d : Description) : String := Json.objectText d.jsonMembers

/-- The text of a description with a field on each line. -/
def toJson (d : Description) : String :=
  "\x7b\n" ++ ",\n".intercalate (d.jsonMembers.map fun (name, value) =>
    "  " ++ Json.quoted name ++ ": " ++ value) ++ "\n\x7d"

/-- The valid description in a text. -/
def ofJson (text : String) : Except DescriptionError Description := do
  let d ← (Json.read (readJson Json.depthLimit) text).mapError .unreadable
  let rows ← if d.rows = 0 then (paddedRows d.usableRows).mapError .fault else .ok d.rows
  let d := { d with rows }
  d.validate.mapError .refused
  return d

end Description

end Plonkish
