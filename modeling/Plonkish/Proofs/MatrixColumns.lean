import Plonkish.Proofs.Refusals

/-!
# Proofs — a matrix by columns

A column is read with the width as its stride, a cell by its row and its place in it.  In a matrix
that was made by `ofShape`, `set` and `growTo` (`Matrix.Made`) the place of a cell never overflows,
and both ways of reading agree:

* `mapM_get_eq_column`: a column of the matrix is the list of its cells from the first row on.
* `columns_eq_mapM`: all columns are the columns one by one, unless there are more than a list can
  hold.
* `column_eq_drop`: past the last column, where `get` and `set` fault, `column` does not look at the
  width.  It goes on with the cells of the column `c % width`, from the row `c / width` on; only a
  matrix without columns has no answer.
-/

namespace Plonkish.Matrix

variable {k : BaseField} {m m' : Matrix k} {c r height width : Nat} {a : Felt k}

/-! ### Matrices that are made -/

/-- The matrices that zero matrices become by writing cells and appending columns. -/
inductive Made : Matrix k → Prop where
  /-- A zero matrix. -/
  | ofShape {height width : Nat} {m : Matrix k} (h : ofShape k height width = .ok m) : Made m
  /-- A cell is replaced. -/
  | set {m m' : Matrix k} {c r : Nat} {a : Felt k} (hm : Made m) (h : m.set c r a = .ok m') :
    Made m'
  /-- Zero columns are appended. -/
  | growTo {m m' : Matrix k} {width : Nat} (hm : Made m) (h : m.growTo width = .ok m') : Made m'

theorem cells_of_cellsOf {n : Nat} (h : cellsOf k height width = .ok n) :
    height * width * k.wordBytes < 2 ^ 63 := by
  obtain ⟨n, hn, h⟩ := bind_eq_ok.mp h
  obtain ⟨-, rfl⟩ := Count.check_eq_ok.mp hn
  exact (Count.entries_eq_ok.mp h).1

/-- A write keeps the shape. -/
theorem shape_of_set (h : m.set c r a = .ok m') : m'.height = m.height ∧ m'.width = m.width := by
  obtain ⟨n, -, h⟩ := bind_eq_ok.mp h
  split at h
  · obtain rfl := Except.ok.inj h
    exact ⟨rfl, rfl⟩
  · cases h

/-- **The cells can be held**, whatever is written and appended. -/
theorem Made.held (h : Made m) : m.height * m.width * k.wordBytes < 2 ^ 63 := by
  induction h with
  | ofShape h =>
      obtain ⟨n, hn, h⟩ := bind_eq_ok.mp h
      obtain rfl := Except.ok.inj h
      exact cells_of_cellsOf hn
  | set _ h ih =>
      obtain ⟨hheight, hwidth⟩ := shape_of_set h
      rwa [hheight, hwidth]
  | growTo _ h ih =>
      unfold Matrix.growTo at h
      split at h
      · obtain rfl := Except.ok.inj h
        exact ih
      · next hle =>
          obtain ⟨n, hn, h⟩ := bind_eq_ok.mp h
          obtain rfl := Except.ok.inj h
          rw [height_grown, width_grown, max_eq_right (Nat.le_of_not_le hle)]
          exact cells_of_cellsOf hn

/-! ### Columns of the matrix -/

theorem column_of_lt (hc : c < m.width) : m.column c = .ok (m.stride c) :=
  if_neg (Nat.zero_lt_of_lt hc).ne'

/-- **A column** is the list of its cells, each read by itself. -/
theorem mapM_get_eq_column (h : Made m) (hc : c < m.width) :
    (List.range m.height).mapM (m.get c) = m.column c := by
  rw [column_of_lt hc, stride_eq hc]
  refine mapM_eq_map fun r hr => ?_
  have hr : r < m.height := List.mem_range.mp hr
  rw [get_eq h.held hc hr, entry, dif_pos ⟨hr, hc⟩]

/-- **All columns** are the columns one by one. -/
theorem columns_eq_mapM (m : Matrix k) :
    m.columns = if m.width * Count.listBytes < 2 ^ 63 then (List.range m.width).mapM m.column
      else .error .overflow := by
  rw [mapM_eq_map fun c hc => column_of_lt (List.mem_range.mp hc)]
  split
  · next h => exact bind_eq_ok.mpr ⟨_, Count.entries_eq_ok.mpr ⟨h, rfl⟩, rfl⟩
  · next h => exact bind_eq_error.mpr (.inl (if_neg h))

/-! ### Past the last column -/

/-- Where there is no column, no cell is read or written. -/
theorem faults_of_width_le (hc : m.width ≤ c) (r : Nat) (a : Felt k) :
    (∃ f, m.get c r = .error f) ∧ ∃ f, m.set c r a = .error f := by
  have hcell : ¬ (c < m.width ∧ r < m.height) := fun h => hc.not_gt h.1
  unfold get set
  rcases Count.mul m.width r with f | n
  · exact ⟨⟨f, rfl⟩, f, rfl⟩
  · exact ⟨⟨.indexOutOfRange, dif_neg hcell⟩, .indexOutOfRange, dif_neg hcell⟩

/-- The stride does not see where the rows end. -/
theorem stride_eq_drop (m : Matrix k) (c : Nat) :
    m.stride c = (m.stride (c % m.width)).drop (c / m.width) := by
  refine List.ext_getElem? fun r => ?_
  rw [List.getElem?_drop, getElem?_stride, getElem?_stride]
  congr 1
  calc m.width * r + c = m.width * r + (m.width * (c / m.width) + c % m.width) := by
        rw [Nat.div_add_mod]
    _ = m.width * (c / m.width + r) + c % m.width := by ring

/-- **Past the last column** there are the cells of another column, from a later row on. -/
theorem column_eq_drop (m : Matrix k) (c : Nat) :
    m.column c = if m.width = 0 then .error .assertion
      else (m.column (c % m.width)).map (List.drop (c / m.width)) := by
  unfold column
  split
  · rfl
  · rw [stride_eq_drop]
    rfl

/-! ### Both ways of reading -/

/-- **Columns and cells agree on what is there.**  In a matrix that is made, a column is the list of
its cells from the first row to the last, and all columns are listed in order, if the list can be
held.  Past the last column no cell is read or written, but there `column` answers with the cells of
the column `c % width` from the row `c / width` on, unless there is no column at all. -/
theorem column_agrees (h : Made m) :
    (∀ c < m.width, ∃ cells, m.column c = .ok cells ∧
      (List.range m.height).mapM (m.get c) = .ok cells) ∧
    (m.columns = if m.width * Count.listBytes < 2 ^ 63 then (List.range m.width).mapM m.column
      else .error .overflow) ∧
    ∀ c, m.width ≤ c →
      (∀ r a, (∃ f, m.get c r = .error f) ∧ ∃ f, m.set c r a = .error f) ∧
      m.column c = if m.width = 0 then .error .assertion
        else (m.column (c % m.width)).map (List.drop (c / m.width)) := by
  refine ⟨fun c hc => ?_, columns_eq_mapM m, fun c hc =>
    ⟨faults_of_width_le hc, column_eq_drop m c⟩⟩
  have hcolumn := column_of_lt hc
  exact ⟨m.stride c, hcolumn, (mapM_get_eq_column h hc).trans hcolumn⟩

/-- Two rows and two columns, with a seven in the second row of the first column. -/
def sevenBelow : Matrix .goldilocks :=
  (zero .goldilocks 2 2).put 0 1 (Felt.ofNat 7) (by decide) (by decide)

/-- Column 2 of two columns is the first column without its first cell. -/
theorem column_agrees_sevenBelow :
    Made sevenBelow ∧ sevenBelow.width = 2 ∧
    (∃ f, sevenBelow.get 2 0 = .error f) ∧ sevenBelow.column 2 = .ok [Felt.ofNat 7] := by
  have hzero : Matrix.ofShape .goldilocks 2 2 = .ok (zero .goldilocks 2 2) := rfl
  have hset : (zero .goldilocks 2 2).set 0 1 (Felt.ofNat 7) = .ok sevenBelow := rfl
  have hmade : Made sevenBelow := .set (.ofShape hzero) hset
  obtain ⟨-, -, hpast⟩ := column_agrees hmade
  obtain ⟨hcells, hcolumn⟩ := hpast 2 le_rfl
  exact ⟨hmade, rfl, (hcells 0 0).1, hcolumn.trans rfl⟩

end Plonkish.Matrix
