import Plonkish.Table.Description
import Plonkish.Table.Matrix

/-!
# Tables — cells

A `Table k` has a matrix of cells for each of the four regions, all of the same height.

A cell is named by its region, column and row.  `tryGet` and `trySet` refuse a cell that the table
does not have: the column is looked at first, then the row.  `tryResolve` reads the cell that a
variable names from an anchor row, and refuses a negative absolute row.  Their companions `get`,
`set` and `resolve` fault where these refuse.

Enabling a selector writes a one into its column, which is appended if there is none yet.
`enableRange` does so for the rows `first, first + step, …` up to `last`, one after the other, and
stops at the first that the table does not have; the rows before it stay enabled.
-/

namespace Plonkish

/-- An assignment table. -/
structure Table (k : BaseField) where
  /-- The number of rows. -/
  rows : Nat
  /-- The number of rows that may be filled. -/
  usableRows : Nat
  /-- The cells of each region. -/
  regions : Regions (Matrix k)
  /-- All regions have the height of the table. -/
  height_eq : ∀ kind, (regions.get kind).height = rows

namespace Table

variable {k : BaseField}

/-- The table of a description, all cells zero. -/
def zero (k : BaseField) (d : Description) : Table k where
  rows := d.rows
  usableRows := d.usableRows
  regions :=
    { witness := .zero k d.rows d.columns.witness
      publicInput := .zero k d.rows d.columns.publicInput
      constant := .zero k d.rows d.columns.constant
      selector := .zero k d.rows d.columns.selector }
  height_eq kind := by cases kind <;> rfl

/-- The table of a description, all cells zero, if its cells can be held. -/
def new (k : BaseField) (d : Description) : Except Fault (Table k) := do
  let _ ← d.columns.mapM (Matrix.cellsOf k d.rows)
  return zero k d

/-- The table of a valid description, all cells zero. -/
def tryNew (k : BaseField) (d : Description) : Except Failure (Table k) := do
  d.validate.mapError .refused
  (new k d).mapError .fault

/-- The table of a description in a JSON text, all cells zero. -/
def ofJson (k : BaseField) (text : String) : Except DescriptionError (Table k) := do
  (new k (← Description.ofJson text)).mapError .fault

/-- The number of columns of a region. -/
def width (t : Table k) (kind : ColumnKind) : Nat := (t.regions.get kind).width

/-- The shape of the table. -/
def description (t : Table k) : Description where
  columns := ⟨t.width .witness, t.width .publicInput, t.width .constant, t.width .selector⟩
  usableRows := t.usableRows
  rows := t.rows

/-- The table with a region replaced by one of the same height. -/
def replace (t : Table k) (kind : ColumnKind) (m : Matrix k) (h : m.height = t.rows) :
    Table k where
  rows := t.rows
  usableRows := t.usableRows
  regions := t.regions.set kind m
  height_eq c := by
    by_cases hc : kind = c
    · subst hc; rw [Regions.get_set_self, h]
    · rw [Regions.get_set_of_ne _ _ hc, t.height_eq]

/-! ### Cells -/

/-- The cell of a column of a region. -/
def tryGet (t : Table k) (kind : ColumnKind) (index row : Nat) : Except TableError (Felt k) :=
  if hc : index < t.width kind then
    if hr : row < t.rows then
      .ok ((t.regions.get kind).cell index row hc (t.height_eq kind ▸ hr))
    else .error (.rowOutOfRange row t.rows)
  else .error (.columnOutOfRange kind index (t.width kind))

/-- The table with a cell replaced. -/
def trySet (t : Table k) (kind : ColumnKind) (index row : Nat) (a : Felt k) :
    Except TableError (Table k) :=
  if hc : index < t.width kind then
    if hr : row < t.rows then
      .ok (t.replace kind ((t.regions.get kind).put index row a hc (t.height_eq kind ▸ hr))
        (t.height_eq kind))
    else .error (.rowOutOfRange row t.rows)
  else .error (.columnOutOfRange kind index (t.width kind))

/-- The cell of a column of a region, which has to exist. -/
def get (t : Table k) (kind : ColumnKind) (index row : Nat) : Except Fault (Felt k) :=
  (t.tryGet kind index row).mapError .table

/-- The table with a cell replaced, which has to exist. -/
def set (t : Table k) (kind : ColumnKind) (index row : Nat) (a : Felt k) : Except Fault (Table k) :=
  (t.trySet kind index row a).mapError .table

/-- The value of a variable, read from an anchor row. -/
def tryResolve (t : Table k) (v : Variable) (anchor : Nat) : Except Failure (Felt k) := do
  match ← (v.row anchor t.rows).mapError .fault with
  | some row => (t.tryGet v.kind v.index.toNat row).mapError .refused
  | none => throw (.refused (.negativeRow v))

/-- The value of a variable, read from an anchor row, which has to exist. -/
def resolve (t : Table k) (v : Variable) (anchor : Nat) : Except Fault (Felt k) := do
  match ← v.row anchor t.rows with
  | some row => t.get v.kind v.index.toNat row
  | none => throw (.table (.negativeRow v))

/-- The value of a variable, read from the first row. -/
def tryValue (t : Table k) (v : Variable) : Except Failure (Felt k) := t.tryResolve v 0

/-- The value of a variable, read from the first row, which has to exist. -/
def value (t : Table k) (v : Variable) : Except Fault (Felt k) := t.resolve v 0

/-! ### Columns -/

/-- The cells of a column, which has to exist. -/
def column (t : Table k) (kind : ColumnKind) (index : Nat) : Except Fault (List (Felt k)) :=
  if index < t.width kind then (t.regions.get kind).column index
  else .error (.table (.columnOutOfRange kind index (t.width kind)))

/-- The columns of a region, if the list of them can be held. -/
def columns (t : Table k) (kind : ColumnKind) : Except Fault (List (List (Felt k))) :=
  (t.regions.get kind).columns

/-- Writes values down a column, from a row on, until one has no cell. -/
def fill (t : Table k) (kind : ColumnKind) (index row : Nat) :
    List (Felt k) → Table k × Except Fault Unit
  | [] => (t, .ok ())
  | a :: values =>
    match t.set kind index row a with
    | .ok t => fill t kind index (row + 1) values
    | .error f => (t, .error f)

/-- The cells of a column that differ from those of another column, with their rows.  A cell that
the other column does not have counts as zero there. -/
def columnChanges : Nat → List (Felt k) → List (Felt k) → List (Nat × Felt k)
  | _, _, [] => []
  | row, old, a :: new =>
    let rest := columnChanges (row + 1) old.tail new
    if old.headD 0 = a then rest else (row, a) :: rest

/-- The cells of a list of columns that differ from those of another list, with their columns and
rows. -/
def columnsChanges : Nat → List (List (Felt k)) → List (List (Felt k)) → List (Nat × Nat × Felt k)
  | _, _, [] => []
  | index, old, column :: new =>
    (columnChanges 0 (old.headD []) column).map (index, ·) ++
      columnsChanges (index + 1) old.tail new

/-- The cells of a region that differ from those of another one, with their columns and rows.  Two
regions of one shape that hold the same cells are not gone through column by column. -/
def regionChanges (old new : Matrix k) : List (Nat × Nat × Felt k) :=
  if old.width = new.width ∧ old.values = new.values then []
  else columnsChanges 0 old.columnList new.columnList

/-- The cells of a new table that differ from those of an old one, by region, column and row.  A
cell that the old table does not have counts as zero there. -/
def changes (old new : Table k) : List (ColumnKind × Nat × Nat × Felt k) :=
  ColumnKind.all.flatMap fun kind =>
    (regionChanges (old.regions.get kind) (new.regions.get kind)).map (kind, ·)

/-! ### Selectors -/

/-- Checks that the selector region can hold a column with the given index. -/
def checkSelector (t : Table k) (selector : Nat) : Except Fault Unit :=
  if selector < t.width .selector then .ok ()
  else do
    let width ← Count.add selector 1
    let _ ← Matrix.cellsOf k t.rows width
    return ()

/-- The table with a selector enabled on a row. -/
def tryEnable (t : Table k) (selector row : Nat) : Except Failure (Table k) :=
  if hr : row < t.rows then do
    (t.checkSelector selector).mapError .fault
    let m := (t.regions.get .selector).grown (selector + 1)
    have hm : m.height = t.rows := (Matrix.height_grown _ _).trans (t.height_eq _)
    have hw : selector < m.width := by
      rw [Matrix.width_grown]
      omega
    return t.replace .selector (m.put selector row 1 hw (hm ▸ hr)) hm
  else .error (.refused (.rowOutOfRange row t.rows))

/-- The table with a selector enabled on a row, which has to exist. -/
def enable (t : Table k) (selector row : Nat) : Except Fault (Table k) :=
  (t.tryEnable selector row).mapError Failure.asFault

/-- Enables a selector on each of a list of rows until the table refuses one. -/
def enableEach (selector : Nat) : List Nat → Table k → Table k × Except Failure Unit
  | [], t => (t, .ok ())
  | row :: rows, t =>
    match t.tryEnable selector row with
    | .ok t => enableEach selector rows t
    | .error e => (t, .error e)

/-- The rows `first, first + step, …` up to `last`, and of those that are not below `rows` only the
first. -/
def rangeRows (rows first last step : Nat) : List Nat :=
  let step := max step 1
  let wanted := if first ≤ last then (last - first) / step + 1 else 0
  let present := if first < rows then (rows - 1 - first) / step + 1 else 0
  List.range' first (min wanted (present + 1)) step

/-- Enables a selector on the rows `first, first + step, …` up to `last`. -/
def enableRange (t : Table k) (selector first last step : Nat) : Table k × Except Failure Unit :=
  enableEach selector (rangeRows t.rows first last step) t

/-- Whether a selector is enabled on a row. -/
def enabled (t : Table k) (selector row : Nat) : Bool :=
  match t.tryGet .selector selector row with
  | .ok a => a ≠ 0
  | .error _ => false

end Table

end Plonkish
