import Plonkish.Circuit.Constraint
import Plonkish.Proofs.Evaluate
import Plonkish.Proofs.Fault

/-!
# Proofs — reading cells

`t.cellAt c` is the value of a cell, and zero where there is none.  A variable names a cell from
every row if `t.Holds` it: the column is there, and the row of an absolute variable too.

* `Variable.row_eq`: the row of a variable, without the signed 64-bit arithmetic it is found by.  A
  relative variable wraps around the table as often as its rotation asks for.
* `Table.tryResolve_eq` and `Table.resolve_eq`: the value of a variable, `t.valueAt`.
* `Table.stride_eq`: a column is the list of its cells.
* `Expr.tryAtRow_eq` and `Expr.atRow_eq`: the value of a constraint, if the table holds all of its
  variables.
-/

namespace Plonkish

variable {k : BaseField}

/-! ### Rows -/

namespace Variable

/-- The row a relative variable reads from an anchor row of a table. -/
def turnedRow (rows anchor : Nat) (rotation : Int) : Nat := ((anchor + rotation) % rows).toNat

/-- The row a variable reads from an anchor row of a table, if there is one. -/
def rowOf (v : Variable) (rows anchor : Nat) : Nat :=
  if v.relative then turnedRow rows anchor v.rotation.toInt else v.rotation.toInt.toNat

/-- A turned row is one of the table. -/
theorem turnedRow_lt {rows anchor : Nat} (h : anchor < rows) (rotation : Int) :
    turnedRow rows anchor rotation < rows := by
  have hpos : (0 : Int) < rows := by omega
  have hlt := Int.emod_lt_of_pos (anchor + rotation) hpos
  have hnonneg := Int.emod_nonneg (anchor + rotation) hpos.ne'
  rw [turnedRow]
  omega

theorem turnedRow_zero {rows anchor : Nat} (h : anchor < rows) :
    turnedRow rows anchor 0 = anchor := by
  rw [turnedRow, Int.add_zero, ← Int.natCast_emod, Nat.mod_eq_of_lt h, Int.toNat_natCast]

/-- One row up from the row below is the row itself. -/
theorem turnedRow_neg_one {rows row : Nat} (h : row < rows) :
    turnedRow rows (row + 1) (-1) = row := by
  rw [turnedRow, Int.natCast_succ, Int.add_neg_cancel_right, ← Int.natCast_emod, Nat.mod_eq_of_lt h,
    Int.toNat_natCast]

/-- Without a rotation, a variable names the row that it is read from. -/
theorem rowOf_relativeTo_zero (kind : ColumnKind) (index : UInt32) {rows row : Nat}
    (h : row < rows) :
    (relativeTo kind index 0).rowOf rows row = row :=
  turnedRow_zero h

/-- With rotation minus one, it names the row above. -/
theorem rowOf_relativeTo_neg_one (kind : ColumnKind) (index : UInt32) {rows row : Nat}
    (h : row < rows) : (relativeTo kind index (-1)).rowOf rows (row + 1) = row :=
  turnedRow_neg_one h

/-- Rows below `2 ^ 62` are the same as signed numbers. -/
theorem bmod_eq {n : Nat} (h : n ≤ 2 ^ 62) : Int.bmod n (1 <<< 64) = n := by
  rw [Nat.one_shiftLeft]
  exact Int.bmod_eq_of_le (by omega) (by omega)

/-- Up to `2 ^ 62` rows, no sum of a row and a rotation overflows. -/
theorem rotatedRow_eq {rows anchor : Nat} (h : anchor < rows) (hrows : rows ≤ 2 ^ 62)
    (rotation : Int32) :
    rotatedRow rows anchor rotation = .ok (turnedRow rows anchor rotation.toInt) := by
  have hlow : -2 ^ 31 ≤ rotation.toInt := rotation.le_toInt
  have hhigh : rotation.toInt < 2 ^ 31 := rotation.toInt_lt
  rw [rotatedRow, if_neg (by omega : rows ≠ 0), bmod_eq (by omega : anchor ≤ 2 ^ 62), bmod_eq hrows]
  dsimp only
  rw [if_neg (by omega), if_neg (by omega)]
  rfl

/-- **The row of a variable**, where a table has one. -/
theorem row_eq {v : Variable} {rows anchor : Nat} (h : anchor < rows) (hrows : rows ≤ 2 ^ 62)
    (habs : v.relative = false → 0 ≤ v.rotation.toInt) :
    v.row anchor rows = .ok (some (v.rowOf rows anchor)) := by
  unfold row rowOf
  split
  · rw [rotatedRow_eq h hrows]; rfl
  · next hrel => rw [if_neg (not_lt.mpr (habs (Bool.not_eq_true _ ▸ hrel)))]

end Variable

/-! ### Cells -/

/-- A place in a table. -/
structure Cell where
  /-- The region. -/
  kind : ColumnKind
  /-- The column. -/
  index : Nat
  /-- The row. -/
  row : Nat
deriving DecidableEq

/-- The entry of a matrix, and zero outside of it. -/
def Matrix.entry (m : Matrix k) (c r : Nat) : Felt k :=
  if h : r < m.height ∧ c < m.width then m.cell c r h.2 h.1 else 0

/-- The cells at a distance of the width are those of a column, if it is there. -/
theorem Matrix.stride_eq {m : Matrix k} {c : Nat} (hc : c < m.width) :
    m.stride c = (List.range m.height).map (m.entry c) := by
  refine List.ext_getElem? fun r => ?_
  rw [getElem?_stride, List.getElem?_map]
  by_cases hr : r < m.height
  · rw [List.getElem?_range hr, Option.map_some, entry, dif_pos ⟨hr, hc⟩]
    exact Array.getElem?_eq_getElem _
  · rw [List.getElem?_eq_none (by rwa [List.length_range, ← not_lt]), Option.map_none,
      Array.getElem?_eq_none_iff, m.size_eq, Nat.mul_comm]
    exact Nat.le_add_right_of_le (Nat.mul_le_mul_left _ (not_lt.mp hr))

namespace Table

/-- The value of a cell, and zero where there is none. -/
def cellAt (t : Table k) (c : Cell) : Felt k := (t.regions.get c.kind).entry c.index c.row

/-- The table has the cell. -/
structure Has (t : Table k) (c : Cell) : Prop where
  /-- The column exists. -/
  index_lt : c.index < t.width c.kind
  /-- The row exists. -/
  row_lt : c.row < t.rows

variable {t : Table k} {kind : ColumnKind} {index row : Nat}

theorem cellAt_eq {c : Cell} (h : t.Has c) :
    t.cellAt c = (t.regions.get c.kind).cell c.index c.row h.index_lt (t.height_eq _ ▸ h.row_lt) :=
  dif_pos ⟨t.height_eq c.kind ▸ h.row_lt, h.index_lt⟩

/-- A cell that does not exist counts as zero. -/
theorem cellAt_of_not_has {c : Cell} (h : ¬ t.Has c) : t.cellAt c = 0 :=
  dif_neg fun hc => h ⟨hc.2, t.height_eq c.kind ▸ hc.1⟩

/-- A cell that exists can be read. -/
theorem tryGet_eq (h : t.Has ⟨kind, index, row⟩) :
    t.tryGet kind index row = .ok (t.cellAt ⟨kind, index, row⟩) := by
  rw [tryGet, dif_pos h.index_lt, dif_pos h.row_lt, cellAt_eq h]

/-- A selector is enabled where its cell is not zero, and so not where there is no cell. -/
theorem enabled_iff {selector : Nat} :
    t.enabled selector row = true ↔ t.cellAt ⟨.selector, selector, row⟩ ≠ 0 := by
  by_cases h : t.Has ⟨.selector, selector, row⟩
  · rw [enabled, tryGet_eq h]
    exact decide_eq_true_iff
  · rw [enabled, tryGet, cellAt_of_not_has h]
    split
    · next a hget =>
        split at hget
        · next hindex =>
            split at hget
            · next hrow => exact absurd ⟨hindex, hrow⟩ h
            · cases hget
        · cases hget
    · simp

/-- A column is the list of its cells. -/
theorem stride_eq (hc : index < t.width kind) :
    (t.regions.get kind).stride index =
      (List.range t.rows).map fun row => t.cellAt ⟨kind, index, row⟩ := by
  rw [Matrix.stride_eq hc, t.height_eq]
  rfl

/-- The cells of a column are those of its rows, in order. -/
theorem getElem?_stride (hc : index < t.width kind) :
    ((t.regions.get kind).stride index)[row]? =
      if row < t.rows then some (t.cellAt ⟨kind, index, row⟩) else none := by
  rw [stride_eq hc, List.getElem?_map]
  split
  · next hrow => rw [List.getElem?_range hrow]; rfl
  · next hrow => rw [List.getElem?_eq_none (by rwa [List.length_range, ← not_lt])]; rfl

/-- There are as many of them as rows. -/
theorem length_stride (hc : index < t.width kind) :
    ((t.regions.get kind).stride index).length = t.rows := by
  rw [stride_eq hc, List.length_map, List.length_range]

end Table

/-! ### Variables -/

/-- The cell a variable names from an anchor row of a table, if there is one. -/
def Variable.cellOf (v : Variable) (rows anchor : Nat) : Cell :=
  ⟨v.kind, v.index.toNat, v.rowOf rows anchor⟩

/-- An absolute variable names the same cell from everywhere. -/
theorem Variable.cellOf_of_absolute {v : Variable} (h : v.relative = false) (rows anchor : Nat) :
    v.cellOf rows anchor = ⟨v.kind, v.index.toNat, v.rotation.toInt.toNat⟩ := by
  rw [cellOf, rowOf, h, if_neg Bool.false_ne_true]

namespace Table

variable {t : Table k}

/-- The table has the cell that a variable names, from every row. -/
structure Holds (t : Table k) (v : Variable) : Prop where
  /-- The column exists. -/
  index_lt : v.index.toNat < t.width v.kind
  /-- The row of an absolute variable exists. -/
  row_lt : v.relative = false → 0 ≤ v.rotation.toInt ∧ v.rotation.toInt < t.rows

/-- The variable is relative and its column exists. -/
structure HoldsRelative (t : Table k) (v : Variable) : Prop where
  /-- The variable is relative. -/
  relative : v.relative = true
  /-- The column exists. -/
  index_lt : v.index.toNat < t.width v.kind

instance (t : Table k) (v : Variable) : Decidable (t.HoldsRelative v) :=
  decidable_of_iff (v.relative = true ∧ v.index.toNat < t.width v.kind)
    ⟨fun h => ⟨h.1, h.2⟩, fun h => ⟨h.relative, h.index_lt⟩⟩

theorem HoldsRelative.holds {v : Variable} (h : t.HoldsRelative v) : t.Holds v :=
  ⟨h.index_lt, fun hrel => by rw [h.relative] at hrel; cases hrel⟩

/-- The variable is absolute and its cell exists. -/
structure HoldsAbsolute (t : Table k) (v : Variable) : Prop where
  /-- The variable is absolute. -/
  absolute : v.relative = false
  /-- The column exists. -/
  index_lt : v.index.toNat < t.width v.kind
  /-- The row is not negative. -/
  row_nonneg : 0 ≤ v.rotation.toInt
  /-- The row exists. -/
  row_lt : v.rotation.toInt < t.rows

instance (t : Table k) (v : Variable) : Decidable (t.HoldsAbsolute v) :=
  decidable_of_iff (v.relative = false ∧ v.index.toNat < t.width v.kind ∧ 0 ≤ v.rotation.toInt ∧
    v.rotation.toInt < t.rows) ⟨fun h => ⟨h.1, h.2.1, h.2.2.1, h.2.2.2⟩,
      fun h => ⟨h.absolute, h.index_lt, h.row_nonneg, h.row_lt⟩⟩

theorem HoldsAbsolute.holds {v : Variable} (h : t.HoldsAbsolute v) : t.Holds v :=
  ⟨h.index_lt, fun _ => ⟨h.row_nonneg, h.row_lt⟩⟩

/-- A table that has a cell has a row. -/
theorem HoldsAbsolute.rows_pos {v : Variable} (h : t.HoldsAbsolute v) : 0 < t.rows := by
  exact_mod_cast h.row_nonneg.trans_lt h.row_lt

/-- The value of a variable, read from an anchor row, and zero if it names no cell. -/
def valueAt (t : Table k) (anchor : Nat) (v : Variable) : Felt k :=
  t.cellAt (v.cellOf t.rows anchor)

/-- Without a rotation, a variable has the value of the cell in the row. -/
theorem valueAt_relativeTo_zero {kind : ColumnKind} (index : UInt32) {row : Nat}
    (hrow : row < t.rows) :
    t.valueAt row (.relativeTo kind index 0) = t.cellAt ⟨kind, index.toNat, row⟩ := by
  rw [valueAt, Variable.cellOf, Variable.rowOf_relativeTo_zero kind index hrow]
  rfl

/-- With rotation minus one, it has that of the cell in the row above. -/
theorem valueAt_relativeTo_neg_one {kind : ColumnKind} (index : UInt32) {row : Nat}
    (hrow : row < t.rows) :
    t.valueAt (row + 1) (.relativeTo kind index (-1)) = t.cellAt ⟨kind, index.toNat, row⟩ := by
  rw [valueAt, Variable.cellOf, Variable.rowOf_relativeTo_neg_one kind index hrow]
  rfl

/-- A relative variable names cells that exist from every row, as it is turned into the table. -/
theorem Holds.has {v : Variable} (h : t.Holds v) {anchor : Nat} (ha : anchor < t.rows) :
    t.Has (v.cellOf t.rows anchor) := by
  refine ⟨h.index_lt, ?_⟩
  show v.rowOf t.rows anchor < t.rows
  unfold Variable.rowOf
  split
  · exact Variable.turnedRow_lt ha _
  · next hrel =>
      have hrow := h.row_lt (Bool.not_eq_true _ ▸ hrel)
      omega

/-- A variable of existing cells is read from every row. -/
theorem tryResolve_eq {v : Variable} (h : t.Holds v) {anchor : Nat} (ha : anchor < t.rows)
    (hrows : t.rows ≤ 2 ^ 62) : t.tryResolve v anchor = .ok (t.valueAt anchor v) := by
  rw [tryResolve, Variable.row_eq ha hrows fun hrel => (h.row_lt hrel).1]
  show (t.tryGet v.kind v.index.toNat _).mapError Failure.refused = _
  rw [tryGet_eq (h.has ha)]
  rfl

/-- An absolute variable is read without any arithmetic on rows. -/
theorem tryValue_eq {v : Variable} (h : t.HoldsAbsolute v) :
    t.tryValue v = .ok (t.valueAt 0 v) := by
  rw [tryValue, tryResolve, Variable.row, h.absolute, if_neg Bool.false_ne_true,
    if_neg (not_lt.mpr h.row_nonneg)]
  have hcell := h.holds.has h.rows_pos
  rw [Variable.cellOf_of_absolute h.absolute] at hcell
  show (t.tryGet v.kind v.index.toNat v.rotation.toInt.toNat).mapError Failure.refused = _
  rw [tryGet_eq hcell, valueAt, Variable.cellOf_of_absolute h.absolute]
  rfl

/-- Where reading a variable is refused, reading one that has to exist faults. -/
theorem resolve_eq_tryResolve (v : Variable) (anchor : Nat) :
    t.resolve v anchor = (t.tryResolve v anchor).mapError Failure.asFault := by
  unfold resolve tryResolve
  rcases v.row anchor t.rows with f | _ | row
  · rfl
  · rfl
  · show (t.tryGet _ _ row).mapError Fault.table = ((t.tryGet _ _ row).mapError _).mapError _
    cases t.tryGet v.kind v.index.toNat row <;> rfl

/-- So it is by the call that may fault. -/
theorem resolve_eq {v : Variable} (h : t.Holds v) {anchor : Nat} (ha : anchor < t.rows)
    (hrows : t.rows ≤ 2 ^ 62) : t.resolve v anchor = .ok (t.valueAt anchor v) := by
  rw [resolve_eq_tryResolve, tryResolve_eq h ha hrows]
  rfl

end Table

/-! ### Constraints -/

namespace Expr

variable {t : Table k} {e : Expr k} {anchor : Nat}

/-- **The value of a constraint at a row**, if the table holds its variables. -/
theorem tryAtRow_eq (h : ∀ v ∈ e.occurrences, t.Holds v) (ha : anchor < t.rows)
    (hrows : t.rows ≤ 2 ^ 62) : e.tryAtRow t anchor = .ok (e.scalar (t.valueAt anchor)) :=
  evaluate_scalars_eq fun v hv => Table.tryResolve_eq (h v hv) ha hrows

/-- A constraint over existing cells has a value in every row. -/
theorem atRow_eq (h : ∀ v ∈ e.occurrences, t.Holds v) (ha : anchor < t.rows)
    (hrows : t.rows ≤ 2 ^ 62) : e.atRow t anchor = .ok (e.scalar (t.valueAt anchor)) :=
  evaluate_scalars_eq fun v hv => Table.resolve_eq (h v hv) ha hrows

end Expr

end Plonkish
