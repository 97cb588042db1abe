import Plonkish.Fault
import Plonkish.Stride

/-!
# Tables — one region

A `Matrix k` holds the cells of one region row after row: the cell of column `c` in row `r` is the
entry at `width * r + c`.  The height is fixed, and columns can be appended.

`Matrix.cell` and `Matrix.put` read and write a cell of the matrix, given that there is one;
`cell_put_self` and `cell_put_of_ne` say that they fit together, and `cell_grown` that appending
columns keeps the cells.  `Matrix.get`, `Matrix.set` and `Matrix.row` take any indices and fault
outside the matrix.  `Matrix.column` walks through the cells with the width as its stride, and does
not look whether the column is there.  `Matrix.columns` lists all columns, unless a matrix without
rows has more of them than a list can hold.
-/

namespace Plonkish

/-- The cells of one region. -/
structure Matrix (k : BaseField) where
  /-- The number of rows. -/
  height : Nat
  /-- The number of columns. -/
  width : Nat
  /-- The cells, row after row. -/
  values : Array (Felt k)
  /-- There are as many cells as rows and columns ask for. -/
  size_eq : values.size = height * width

namespace Matrix

variable {k : BaseField}

/-- The number of cells of a shape, if they can be held. -/
def cellsOf (k : BaseField) (height width : Nat) : Except Fault Nat := do
  Count.held k (← Count.mul height width)

/-- The zero matrix of a shape. -/
def zero (k : BaseField) (height width : Nat) : Matrix k where
  height := height
  width := width
  values := Array.replicate (height * width) 0
  size_eq := Array.size_replicate

/-- The zero matrix of a shape, if its cells can be held. -/
def ofShape (k : BaseField) (height width : Nat) : Except Fault (Matrix k) := do
  let _ ← cellsOf k height width
  return zero k height width

/-! ### Cells -/

theorem index_lt {height width c r : Nat} (hc : c < width) (hr : r < height) :
    width * r + c < height * width :=
  calc width * r + c < width * r + width := Nat.add_lt_add_left hc _
    _ = width * (r + 1) := rfl
    _ ≤ width * height := Nat.mul_le_mul_left _ hr
    _ = height * width := Nat.mul_comm _ _

/-- The cell of column `c` in row `r`. -/
def cell (m : Matrix k) (c r : Nat) (hc : c < m.width) (hr : r < m.height) : Felt k :=
  have : m.width * r + c < m.values.size := m.size_eq ▸ index_lt hc hr
  m.values[m.width * r + c]

/-- The matrix with a cell replaced. -/
def put (m : Matrix k) (c r : Nat) (a : Felt k) (hc : c < m.width) (hr : r < m.height) :
    Matrix k where
  height := m.height
  width := m.width
  values := m.values.set (m.width * r + c) a (m.size_eq ▸ index_lt hc hr)
  size_eq := by rw [Array.size_set, m.size_eq]

@[simp] theorem height_put (m : Matrix k) (c r : Nat) (a : Felt k) (hc : c < m.width)
    (hr : r < m.height) : (m.put c r a hc hr).height = m.height := rfl

@[simp] theorem width_put (m : Matrix k) (c r : Nat) (a : Felt k) (hc : c < m.width)
    (hr : r < m.height) : (m.put c r a hc hr).width = m.width := rfl

@[simp] theorem cell_put_self (m : Matrix k) (c r : Nat) (a : Felt k) (hc : c < m.width)
    (hr : r < m.height) : (m.put c r a hc hr).cell c r hc hr = a := by
  simp [cell, put]

theorem index_injective {width c r d s : Nat} (hc : c < width) (hd : d < width)
    (h : width * r + c = width * s + d) : c = d ∧ r = s := by
  have hc' : c = d := by
    have := congrArg (· % width) h
    simpa [Nat.mul_add_mod, Nat.mod_eq_of_lt, hc, hd] using this
  refine ⟨hc', ?_⟩
  subst hc'
  exact Nat.eq_of_mul_eq_mul_left (Nat.zero_lt_of_lt hc) (Nat.add_right_cancel h)

theorem cell_put_of_ne (m : Matrix k) {c r d s : Nat} (a : Felt k) (hc : c < m.width)
    (hr : r < m.height) (hd : d < m.width) (hs : s < m.height) (h : ¬ (c = d ∧ r = s)) :
    (m.put c r a hc hr).cell d s hd hs = m.cell d s hd hs := by
  have hne : m.width * r + c ≠ m.width * s + d := fun e => h (index_injective hc hd e)
  simp only [cell, put]
  exact Array.getElem_set_ne _ _ hne

/-! ### Rows and columns -/

/-- The entries of a row.  Every row of a matrix without columns is empty. -/
def row (m : Matrix k) (r : Nat) : Except Fault (List (Felt k)) := do
  let start ← Count.mul m.width r
  if start + m.width ≤ m.values.size then
    return (m.values.extract start (start + m.width)).toList
  else throw .indexOutOfRange

/-- The cell of column `c` in row `r`, of which nothing is known. -/
def get (m : Matrix k) (c r : Nat) : Except Fault (Felt k) := do
  let _ ← Count.mul m.width r
  if h : c < m.width ∧ r < m.height then return m.cell c r h.1 h.2 else throw .indexOutOfRange

/-- The matrix with the cell of column `c` in row `r` replaced. -/
def set (m : Matrix k) (c r : Nat) (a : Felt k) : Except Fault (Matrix k) := do
  let _ ← Count.mul m.width r
  if h : c < m.width ∧ r < m.height then return m.put c r a h.1 h.2 else throw .indexOutOfRange

/-- Every `width`-th cell, from the one at `c` on. -/
def stride (m : Matrix k) (c : Nat) : List (Felt k) := stridden m.values c m.width m.height

theorem getElem?_stride (m : Matrix k) (c r : Nat) :
    (m.stride c)[r]? = m.values[m.width * r + c]? := by
  rw [stride, getElem?_stridden]
  split
  · rfl
  · next h =>
    rw [eq_comm, Array.getElem?_eq_none_iff, m.size_eq, Nat.mul_comm]
    exact Nat.le_trans (Nat.mul_le_mul_left _ (Nat.le_of_not_lt h)) (Nat.le_add_right _ _)

/-- The cells at a distance of the width from each other, from the one at `c` on.  These are the
cells of column `c` if there is one. -/
def column (m : Matrix k) (c : Nat) : Except Fault (List (Felt k)) :=
  if m.width = 0 then .error .assertion else .ok (m.stride c)

/-- The list of the columns. -/
def columnList (m : Matrix k) : List (List (Felt k)) := (List.range m.width).map m.stride

/-- The list of the columns, if it can be held.  A matrix without rows may have too many. -/
def columns (m : Matrix k) : Except Fault (List (List (Felt k))) := do
  let _ ← Count.entries Count.listBytes m.width
  return m.columnList

/-! ### Growth -/

/-- The matrix with zero columns appended up to a width. -/
def grown (m : Matrix k) (width : Nat) : Matrix k :=
  if width ≤ m.width then m else
    { height := m.height
      width := width
      values := Array.ofFn fun i : Fin (m.height * width) =>
        if h : i % width < m.width ∧ i / width < m.height then
          m.cell (i % width) (i / width) h.1 h.2 else 0
      size_eq := Array.size_ofFn }

/-- The matrix with zero columns appended up to a width, if its cells can be held. -/
def growTo (m : Matrix k) (width : Nat) : Except Fault (Matrix k) := do
  if width ≤ m.width then return m
  let _ ← cellsOf k m.height width
  return m.grown width

@[simp] theorem height_grown (m : Matrix k) (width : Nat) : (m.grown width).height = m.height := by
  unfold grown; split <;> rfl

@[simp] theorem width_grown (m : Matrix k) (width : Nat) :
    (m.grown width).width = max m.width width := by
  unfold grown
  split
  · omega
  · show width = _
    omega

/-- Appending columns keeps the cells, and the new ones are zero. -/
theorem cell_grown (m : Matrix k) {width c r : Nat} (hc : c < (m.grown width).width)
    (hr : r < m.height) :
    (m.grown width).cell c r hc (by simpa using hr) =
      if h : c < m.width then m.cell c r h hr else 0 := by
  by_cases hw : width ≤ m.width
  · have : m.grown width = m := by unfold grown; rw [if_pos hw]
    have hc' : c < m.width := by rw [width_grown] at hc; omega
    rw [dif_pos hc']
    congr 1
  · have hcw : c < width := by rw [width_grown] at hc; omega
    have hmod : (width * r + c) % width = c := by
      rw [Nat.mul_add_mod, Nat.mod_eq_of_lt hcw]
    have hdiv : (width * r + c) / width = r := by
      rw [Nat.mul_add_div (Nat.zero_lt_of_lt hcw), Nat.div_eq_of_lt hcw, Nat.add_zero]
    simp only [cell, grown, hw, if_false, Array.getElem_ofFn, hmod, hdiv, hr, and_true]

end Matrix

end Plonkish
