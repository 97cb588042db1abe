import Mathlib.Data.List.GetD
import Plonkish.Gadget.Assembly
import Plonkish.Proofs.Operators
import Plonkish.Proofs.Registry
import Plonkish.Proofs.Writes

/-!
# Proofs — the steps that place a gadget

`Build.Runs x a r a'` says that the steps `x`, started on the assembly `a`, answer `r` and leave the
assembly `a'`.  `Build.Runs.bind` puts steps together.

The lemmas after it run each step on an assembly that has what the step needs.  Steps that write to
the table leave the circuit alone and change the cells they name (`Table.Changes`); for a row of a
layout with different columns, `Build.runs_writeRow` also says that the row then shows the cells
that were written (`Table.ShowsRow`).
-/

namespace Plonkish

variable {k : BaseField}

/-- The circuit with some copy constraints added. -/
def Circuit.addCopies (c : Circuit k) (copies : List CopyConstraint) : Circuit k :=
  { c with copies := copies.foldl Array.push c.copies }

/-- Copy constraints are added to those that are there. -/
theorem Circuit.mem_addCopies {c : Circuit k} {copies : List CopyConstraint}
    {copy : CopyConstraint} :
    copy ∈ (c.addCopies copies).copies ↔ copy ∈ c.copies ∨ copy ∈ copies := by
  show copy ∈ copies.foldl Array.push c.copies ↔ _
  rw [List.foldl_push_eq_append]
  simp

namespace Build

variable {α β : Type} {a a' a'' : Assembly k}

/-! ### Sequences of steps -/

/-- The steps answer and leave an assembly. -/
def Runs (x : Build k α) (a : Assembly k) (r : α) (a' : Assembly k) : Prop :=
  x.run.run a = (.ok r, a')

/-- The steps fail with an error and leave an assembly. -/
def Fails (x : Build k α) (a : Assembly k) (e : GadgetError) (a' : Assembly k) : Prop :=
  x.run.run a = (.error e, a')

/-- What comes after a step that fails is not run. -/
theorem Fails.bind {x : Build k α} {f : α → Build k β} {e : GadgetError} (hx : Fails x a e a') :
    Fails (x >>= f) a e a' := by
  rw [Fails] at hx ⊢
  rw [ExceptT.run_bind, StateT.run_bind, hx]
  rfl

/-- A computation that fails leaves the assembly alone. -/
theorem fails_ofExcept {result : Except GadgetError α} {e : GadgetError} (h : result = .error e) :
    Fails (ofExcept result) a e a := by
  rw [h]
  rfl

namespace Runs

theorem pure (r : α) (a : Assembly k) : Runs (Pure.pure r) a r a := rfl

/-- The steps after others that answer fail. -/
theorem bind_fails {x : Build k α} {f : α → Build k β} {r : α} {e : GadgetError}
    (hx : Runs x a r a') (hf : Fails (f r) a' e a'') : Fails (x >>= f) a e a'' := by
  rw [Runs] at hx
  rw [Fails] at hf ⊢
  rw [ExceptT.run_bind, StateT.run_bind, hx]
  exact hf

/-- Two steps that run do so one after the other. -/
theorem bind {x : Build k α} {f : α → Build k β} {r : α} {s : β} (hx : Runs x a r a')
    (hf : Runs (f r) a' s a'') : Runs (x >>= f) a s a'' := by
  rw [Runs] at hx hf ⊢
  rw [ExceptT.run_bind, StateT.run_bind, hx]
  exact hf

theorem map {x : Build k α} {f : α → β} {r : α} (hx : Runs x a r a') :
    Runs (f <$> x) a (f r) a' := by
  rw [Runs] at hx ⊢
  rw [ExceptT.run_map, StateT.run_map, hx]
  rfl

/-- Leaving out the answer of a run leaves the rest of it. -/
theorem discard {x : Build k α} {r : α} (hx : Runs x a r a') : Runs (discard x) a () a' :=
  hx.map (f := fun _ => ())

/-- Steps that leave the assembly alone may be taken for all entries of a list. -/
theorem mapM {f : α → Build k β} {g : α → β} {l : List α} (h : ∀ x ∈ l, Runs (f x) a (g x) a) :
    Runs (l.mapM f) a (l.map g) a := by
  induction l with
  | nil => exact pure [] a
  | cons x l ih =>
      rw [List.mapM_cons]
      exact (h x List.mem_cons_self).bind
        ((ih fun y hy => h y (List.mem_cons_of_mem _ hy)).bind (pure _ a))

end Runs

theorem runs_ofExcept {result : Except GadgetError α} {r : α} (h : result = .ok r) :
    Runs (ofExcept result) a r a := by
  rw [h]
  rfl

theorem runs_ofFault {result : Except Fault α} {r : α} (h : result = .ok r) :
    Runs (ofFault result) a r a :=
  runs_ofExcept (mapError_eq_ok.mpr h)

/-- A change of the table that answers is a step. -/
theorem runs_onTable {change : Table k → Except GadgetError (Table k)} {t : Table k}
    (h : change a.table = .ok t) : Runs (onTable change) a () { a with table := t } :=
  have hget : Runs get a a a := rfl
  hget.bind ((runs_ofExcept h).bind rfl)

/-- An absolute variable of an existing cell is read from the table. -/
theorem runs_read {v : Variable} (hv : a.table.HoldsAbsolute v) :
    Runs (read v) a (a.table.valueAt 0 v) a := by
  have hget : Runs get a a a := rfl
  refine hget.bind (runs_ofExcept ?_)
  rw [Table.tryValue_eq hv]
  rfl

/-! ### The circuit -/

/-- Adding a gate always answers. -/
theorem runs_addGate (constraints : List (Expr k)) :
    Runs (addGate constraints) a (a.circuit.addGate constraints).1
      ⟨(a.circuit.addGate constraints).2, a.table⟩ :=
  rfl

/-- Adding a copy constraint answers for absolute variables, even if their cells do not exist. -/
theorem runs_addCopy {v w : Variable} (hv : v.relative = false) (hw : w.relative = false) :
    Runs (addCopy v w) a ()
      ⟨{ a.circuit with copies := a.circuit.copies.push ⟨v, w⟩ }, a.table⟩ := by
  have hget : Runs get a a a := rfl
  refine hget.bind ((runs_ofFault ?_).bind rfl)
  rw [Circuit.addCopy, hv, hw]
  rfl

/-- Adding some copy constraints between absolute cells. -/
theorem runs_addCopies {l : List (Variable × Variable)}
    (h : ∀ c ∈ l, c.1.relative = false ∧ c.2.relative = false) :
    Runs (l.forM fun c => addCopy c.1 c.2) a ()
      ⟨a.circuit.addCopies (l.map fun c => ⟨c.1, c.2⟩), a.table⟩ := by
  induction l generalizing a with
  | nil => exact Runs.pure () a
  | cons c l ih =>
      obtain ⟨hfirst, hsecond⟩ := h c List.mem_cons_self
      exact (runs_addCopy hfirst hsecond).bind (ih fun d hd => h d (List.mem_cons_of_mem _ hd))

/-! ### Selectors -/

/-- A selector is enabled in a row that exists where there is memory for its column.  Nothing else
is written. -/
theorem runs_enable {selector row columns : Nat} (hrow : row < a.table.rows)
    (h : a.table.Affords columns) (hlt : selector < columns) :
    ∃ t, Runs (enable selector row) a () ⟨a.circuit, t⟩ ∧
      a.table.Changes t {⟨.selector, selector, row⟩} := by
  obtain ⟨t, ht, hchange⟩ := Table.tryEnable_changes hrow h hlt
  exact ⟨t, runs_onTable (mapError_eq_ok.mpr ht), hchange⟩

/-- The same over a range of rows, and what is written is the selector in these rows. -/
theorem runs_enableRange {selector first count columns : Nat} (hrows : first + count < a.table.rows)
    (h : a.table.Affords columns) (hlt : selector < columns) :
    ∃ t, Runs (enableRange selector first (first + count)) a () ⟨a.circuit, t⟩ ∧
      a.table.Changes t (Table.selectorCells selector (List.range' first (count + 1))) := by
  obtain ⟨t, ht, hchange⟩ := Table.enableRange_changes hrows h hlt
  refine ⟨t, ?_, hchange⟩
  have hget : Runs get a a a := rfl
  refine hget.bind ?_
  rw [ht]
  rfl

end Build

/-! ### Layouts -/

namespace Layout

/-- The cell of a witness column of a layout. -/
def cell (l : Layout) (i row : Nat) : Cell := ⟨.witness, (l.witness.getD i 0).toNat, row⟩

/-- Some cells of a row of a layout, next to each other. -/
def rowCells (l : Layout) (row i count : Nat) : Set Cell :=
  {c | ∃ j < count, c = l.cell (i + j) row}

/-- The cells of some rows of a layout, from the first column on. -/
def block (l : Layout) (start rows count : Nat) : Set Cell :=
  {c | ∃ r < rows, ∃ i < count, c = l.cell i (start + r)}

/-- The cells of a block are witness cells. -/
theorem kind_of_mem_block {l : Layout} {start rows count : Nat} {c : Cell}
    (h : c ∈ l.block start rows count) : c.kind = .witness := by
  obtain ⟨r, -, i, -, rfl⟩ := h
  rfl

/-- The absolute variable of a witness cell of a layout. -/
def cellVariable (l : Layout) (i row : Nat) : Variable :=
  ⟨.witness, l.witness.getD i 0, Int32.ofNat row, false⟩

/-- A layout knows the columns that it has. -/
theorem columnAt_eq {columns : List UInt32} {i : Nat} (h : i < columns.length) :
    columnAt columns i = .ok (columns.getD i 0) := by
  rw [columnAt, List.getElem?_eq_getElem h, List.getD_eq_getElem _ _ h]

/-- It knows no others. -/
theorem columnAt_eq_ok {columns : List UInt32} {i : Nat} {column : UInt32} :
    columnAt columns i = .ok column ↔ i < columns.length ∧ columns.getD i 0 = column := by
  constructor
  · intro h
    by_cases hi : i < columns.length
    · exact ⟨hi, Except.ok.inj ((columnAt_eq hi).symm.trans h)⟩
    · rw [columnAt, List.getElem?_eq_none (not_lt.mp hi)] at h
      cases h
  · rintro ⟨hi, rfl⟩
    exact columnAt_eq hi

theorem witnessAt_eq {l : Layout} {i : Nat} (h : i < l.witness.length) :
    l.witnessAt i = .ok (l.witness.getD i 0) := columnAt_eq h

theorem witnessAt_eq_ok {l : Layout} {i : Nat} {column : UInt32} :
    l.witnessAt i = .ok column ↔ i < l.witness.length ∧ l.witness.getD i 0 = column :=
  columnAt_eq_ok

theorem getD_mem {l : List UInt32} {i : Nat} (h : i < l.length) : l.getD i 0 ∈ l := by
  rw [List.getD_eq_getElem _ _ h]
  exact List.getElem_mem h

/-- A cell of a layout can be named in rows below `2 ^ 31`. -/
theorem witnessCell_eq {l : Layout} {i row : Nat} (hi : i < l.witness.length)
    (hrow : row < 2 ^ 31) :
    l.witnessCell i row = .ok (l.cellVariable i row) := by
  rw [witnessCell, witnessAt_eq hi]
  show Variable.absolute .witness (l.witness.getD i 0) row = _
  rw [Variable.absolute, Variable.absolute?, if_pos (show row < 1 <<< 31 from hrow)]
  rfl

/-- In a row from `2 ^ 31` on, no absolute variable names the cell. -/
theorem witnessCell_eq_error {l : Layout} {i row : Nat} (hi : i < l.witness.length)
    (hrow : 2 ^ 31 ≤ row) : l.witnessCell i row = .error (.absoluteRow row) := by
  rw [witnessCell, witnessAt_eq hi]
  show Variable.absolute .witness (l.witness.getD i 0) row = _
  rw [Variable.absolute, Variable.absolute?, if_neg (show ¬ row < 1 <<< 31 from not_lt.mpr hrow)]

/-- The rotation of the variable of a cell is the row, read as a signed number. -/
theorem toInt_rotation_cellVariable (l : Layout) (i : Nat) {row : Nat} (hrow : row < 2 ^ 31) :
    (l.cellVariable i row).rotation.toInt = row :=
  Int32.toInt_ofNat_of_lt hrow

/-- The variable of a cell names that cell, from every row and in every table. -/
theorem cellOf_cellVariable (l : Layout) (i : Nat) {row : Nat} (hrow : row < 2 ^ 31)
    (rows anchor : Nat) : (l.cellVariable i row).cellOf rows anchor = l.cell i row := by
  rw [Variable.cellOf_of_absolute rfl, toInt_rotation_cellVariable l i hrow, Int.toNat_natCast]
  rfl

/-- In a layout whose columns are different, a cell has one place. -/
theorem cell_injective {l : Layout} (h : l.witness.Nodup) {i j r s : Nat}
    (hi : i < l.witness.length)
    (hj : j < l.witness.length) (hcell : l.cell i r = l.cell j s) : i = j ∧ r = s := by
  rw [cell, cell, Cell.mk.injEq, List.getD_eq_getElem _ _ hi, List.getD_eq_getElem _ _ hj] at hcell
  exact ⟨(h.getElem_inj_iff).mp (UInt32.toNat_inj.mp hcell.2.1), hcell.2.2⟩

end Layout

/-- The columns of a layout are different and exist. -/
structure Table.HasLayout (t : Table k) (l : Layout) : Prop where
  /-- The witness columns are different. -/
  nodup : l.witness.Nodup
  /-- The witness columns exist. -/
  witness_lt : ∀ c ∈ l.witness, c.toNat < t.width .witness
  /-- The constant columns exist. -/
  constant_lt : ∀ c ∈ l.constant, c.toNat < t.width .constant

namespace Table

variable {t t' : Table k} {l : Layout}

/-- A layout stays one of the table, since no columns are taken away. -/
theorem Changes.hasLayout {written : Set Cell} (h : t.Changes t' written) (hl : t.HasLayout l) :
    t'.HasLayout l :=
  ⟨hl.nodup, fun c hc => (hl.witness_lt c hc).trans_le (h.width_mono _),
    fun c hc => (hl.constant_lt c hc).trans_le (h.width_mono _)⟩

/-- The cells of a layout exist in every row. -/
theorem HasLayout.has (hl : t.HasLayout l) {i row : Nat} (hi : i < l.witness.length)
    (hrow : row < t.rows) : t.Has (l.cell i row) :=
  ⟨hl.witness_lt _ (Layout.getD_mem hi), hrow⟩

/-- Where a variable can name them, it does. -/
theorem HasLayout.holdsAbsolute (hl : t.HasLayout l) {i row : Nat} (hi : i < l.witness.length)
    (hrow : row < t.rows) (hsmall : row < 2 ^ 31) : t.HoldsAbsolute (l.cellVariable i row) := by
  have hrotation := l.toInt_rotation_cellVariable i hsmall
  exact ⟨rfl, hl.witness_lt _ (Layout.getD_mem hi), by rw [hrotation]; exact Int.natCast_nonneg _,
    by rw [hrotation]; exact_mod_cast hrow⟩

/-- The first columns are different, and exist if there are enough. -/
theorem hasLayout_contiguous {witness constant : UInt32}
    (hwitness : witness.toNat ≤ t.width .witness) (hconstant : constant.toNat ≤ t.width .constant) :
    t.HasLayout (.contiguous witness constant) := by
  have hlt : ∀ {n : UInt32} {i : Nat}, i ∈ List.range n.toNat → i < 2 ^ 32 := fun hi =>
    (List.mem_range.mp hi).trans (UInt32.toNat_lt _)
  have hcolumn : ∀ {n : UInt32} {c}, c ∈ (List.range n.toNat).map UInt32.ofNat →
      c.toNat < n.toNat := by
    intro n c hc
    obtain ⟨i, hi, rfl⟩ := List.mem_map.mp hc
    rw [UInt32.toNat_ofNat_of_lt' (hlt hi)]
    exact List.mem_range.mp hi
  refine ⟨List.nodup_range.map_on ?_, fun c hc => (hcolumn hc).trans_le hwitness,
    fun c hc => (hcolumn hc).trans_le hconstant⟩
  intro i hi j hj hij
  have hval := congrArg UInt32.toNat hij
  rwa [UInt32.toNat_ofNat_of_lt' (hlt hi), UInt32.toNat_ofNat_of_lt' (hlt hj)] at hval

/-- A row of a layout shows some cells. -/
def ShowsRow (t : Table k) (l : Layout) (row : Nat) (cells : List (Felt k)) : Prop :=
  ∀ i a, cells[i]? = some a → t.cellAt (l.cell i row) = a

end Table

/-- In a row, a witness column of a layout has the value of its cell. -/
theorem Layout.value_witness {t : Table k} (l : Layout) (i : Nat) {row : Nat}
    (hrow : row < t.rows) :
    (Variable.relativeTo .witness (l.witness.getD i 0) 0 : Expr k).value (t.valueAt row) =
      t.cellAt (l.cell i row) := by
  rw [Expr.value_variable]
  exact Table.valueAt_relativeTo_zero _ hrow

/-- In a row, a constant column of a layout has the value of its cell. -/
theorem Layout.value_constant {t : Table k} (l : Layout) (i : Nat) {row : Nat}
    (hrow : row < t.rows) :
    (Variable.relativeTo .constant (l.constant.getD i 0) 0 : Expr k).value (t.valueAt row) =
      t.cellAt ⟨.constant, (l.constant.getD i 0).toNat, row⟩ := by
  rw [Expr.value_variable]
  exact Table.valueAt_relativeTo_zero _ hrow

namespace Build

variable {a : Assembly k} {l : Layout}

/-- A witness cell is written where the layout has it, and nothing else is. -/
theorem runs_writeWitness {i row : Nat} (hl : a.table.HasLayout l) (hi : i < l.witness.length)
    (hrow : row < a.table.rows) (x : Felt k) :
    ∃ t, Runs (writeWitness l i row x) a () ⟨a.circuit, t⟩ ∧
      a.table.Changes t {l.cell i row} ∧ t.cellAt (l.cell i row) = x := by
  obtain ⟨t, ht, hchange, hx⟩ := Table.trySet_changes (hl.has hi hrow) x
  exact ⟨t, (runs_ofFault (Layout.witnessAt_eq hi)).bind (runs_onTable (mapError_eq_ok.mpr ht)),
    hchange, hx⟩

/-- Cells are written into a row from a column on, and nothing else is. -/
theorem runs_writeRow_from {i row : Nat} {cells : List (Felt k)} (hl : a.table.HasLayout l)
    (hrow : row < a.table.rows) (hlen : i + cells.length ≤ l.witness.length) :
    ∃ t, Runs (writeRow l row i cells) a () ⟨a.circuit, t⟩ ∧
      a.table.Changes t (l.rowCells row i cells.length) ∧
      ∀ j x, cells[j]? = some x → t.cellAt (l.cell (i + j) row) = x := by
  induction cells generalizing a i with
  | nil =>
      exact ⟨a.table, rfl, (Table.Changes.refl _).mono (Set.empty_subset _), nofun⟩
  | cons x cells ih =>
      rw [List.length_cons] at hlen
      have hi : i < l.witness.length := by omega
      obtain ⟨t₁, hrun, hchange, hx⟩ := runs_writeWitness hl hi hrow x
      obtain ⟨t₂, hrun', hchange', hcells⟩ := ih (a := ⟨a.circuit, t₁⟩) (i := i + 1)
        (hchange.hasLayout hl) (hchange.rows_eq ▸ hrow) (by omega)
      refine ⟨t₂, hrun.bind hrun', (hchange.trans hchange').mono ?_, ?_⟩
      · rintro c (rfl | ⟨j, hj, rfl⟩)
        · exact ⟨0, Nat.succ_pos _, rfl⟩
        · exact ⟨j + 1, Nat.succ_lt_succ hj, by rw [Nat.add_right_comm, Nat.add_assoc]⟩
      · intro j y hy
        cases j with
        | zero =>
            -- The other columns are different ones, so the first cell stays as it was written.
            obtain rfl := Option.some.inj hy
            refine (hchange'.frame _ ?_).trans hx
            rintro ⟨j, hj, hcell⟩
            have hsame := (Layout.cell_injective hl.nodup hi (by omega) hcell).1
            omega
        | succ j =>
            rw [show i + (j + 1) = i + 1 + j by omega]
            exact hcells j y hy

/-- Cells may be written in two parts. -/
theorem writeRow_append (row i : Nat) (cells cells' : List (Felt k)) :
    writeRow (k := k) l row i (cells ++ cells') =
      writeRow l row i cells >>= fun _ => writeRow l row (i + cells.length) cells' := by
  induction cells generalizing i with
  | nil => rfl
  | cons x cells ih =>
      rw [List.cons_append, writeRow, writeRow, ih, bind_assoc, List.length_cons,
        Nat.add_right_comm, Nat.add_assoc]

/-- **Writing a row** of a layout with different columns. -/
theorem runs_writeRow {row : Nat} {cells : List (Felt k)} (hl : a.table.HasLayout l)
    (hrow : row < a.table.rows) (hlen : cells.length ≤ l.witness.length) :
    ∃ t, Runs (writeRow l row 0 cells) a () ⟨a.circuit, t⟩ ∧
      a.table.Changes t (l.rowCells row 0 cells.length) ∧ t.ShowsRow l row cells := by
  obtain ⟨t, hrun, hchange, hcells⟩ :=
    runs_writeRow_from (i := 0) hl hrow (by rwa [Nat.zero_add])
  refine ⟨t, hrun, hchange, ?_⟩
  intro i x hx
  have hcell := hcells i x hx
  rwa [Nat.zero_add] at hcell

/-- A constant cell is written where the layout has it, and nothing else is. -/
theorem runs_writeConstant {i row : Nat} (hl : a.table.HasLayout l) (hi : i < l.constant.length)
    (hrow : row < a.table.rows) (hsmall : row < 2 ^ 31) (x : Felt k) :
    ∃ t, Runs (writeConstant l i row x) a () ⟨a.circuit, t⟩ ∧
      a.table.Changes t {⟨.constant, (l.constant.getD i 0).toNat, row⟩} ∧
      t.cellAt ⟨.constant, (l.constant.getD i 0).toNat, row⟩ = x := by
  have hcolumn : l.constantAt i = .ok (l.constant.getD i 0) := Layout.columnAt_eq hi
  have hcell :
      l.constantCell i row = .ok ⟨.constant, l.constant.getD i 0, Int32.ofNat row, false⟩ := by
    rw [Layout.constantCell, hcolumn]
    show Variable.absolute .constant (l.constant.getD i 0) row = _
    rw [Variable.absolute, Variable.absolute?, if_pos (show row < 1 <<< 31 from hsmall)]
  obtain ⟨t, ht, hchange, hx⟩ :=
    Table.trySet_changes ⟨hl.constant_lt _ (Layout.getD_mem hi), hrow⟩ x
  exact ⟨t, (runs_ofFault hcell).bind (runs_onTable (mapError_eq_ok.mpr ht)), hchange, hx⟩

end Build

end Plonkish
