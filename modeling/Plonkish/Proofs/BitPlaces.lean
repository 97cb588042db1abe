import Plonkish.Proofs.RoundTrip

/-!
# Proofs — where bits stand

Bit rows are written from the list of all slots, the padding and the bits, which is cut into rows.
The cells of the bits are found by dividing the number of a slot by the number of slots in a row.
The two agree, whatever the remainder is.

* `BitRows.LaidOut` says what is in the rows, by columns and rows of the table.  Written rows are
  laid out like this (`BitRows.Shows.laidOut`).
* `BitRows.nodup_bitVariables` and `BitRows.row_bitVariables`: the cells that are named are
  different ones, in these rows.
* `BitRows.cells_eq_error`: a row that an absolute variable cannot name has no cells, and the first
  one like this is reported.
* `BitRows.runs_laidOut` is for all bits in all rows that the table has.
-/

namespace Plonkish

variable {k : BaseField} {t t' : Table k} {l : Layout}

open Build (Runs)

/-! ### Cells of a layout -/

/-- What the table has in a witness column of a layout. -/
def Layout.read (l : Layout) (t : Table k) (i row : Nat) : Except TableError (Felt k) :=
  t.tryGet .witness (l.witness.getD i 0).toNat row

theorem Table.Changes.hasBitColumns {written : Set Cell} (h : t.Changes t' written)
    (hl : t.HasBitColumns l) : t'.HasBitColumns l :=
  ⟨hl.three_le, hl.nodup, fun c hc => (hl.witness_lt c hc).trans_le (h.width_mono _)⟩

theorem Table.HasBitColumns.read_eq (hl : t.HasBitColumns l) {i row : Nat}
    (hi : i < l.witness.length) (hrow : row < t.rows) :
    l.read t i row = .ok (t.cellAt (l.cell i row)) :=
  tryGet_eq ⟨hl.witness_lt _ (Layout.getD_mem hi), hrow⟩

/-- The numbers of a range up to one of them. -/
theorem range'_concat_prefix {first n i : Nat} (h : i ∈ List.range' first n) :
    List.range' first (i - first) ++ [i] <+: List.range' first n := by
  obtain ⟨hle, hlt⟩ := List.mem_range'_1.mp h
  have hconcat : List.range' first (i - first + 1) = List.range' first (i - first) ++ [i] := by
    rw [List.range'_1_concat, Nat.add_sub_cancel' hle]
  refine ⟨List.range' (first + (i - first + 1)) (n - (i - first + 1)), ?_⟩
  rw [← hconcat, List.range'_append_1, Nat.add_sub_cancel' (by omega)]

namespace BitRows

variable {b : BitRows} {bits : List Bool} {start : Nat}

/-! ### What is in the rows -/

/-- Some bits in the rows of a table from `start` on, most significant first, with running sums. -/
structure LaidOut (b : BitRows) (t : Table k) (start : Nat) (bits : List Bool) : Prop where
  /-- The slots before the first bit are zero. -/
  padding : ∀ slot < b.padding, b.layout.read t (slot + 1) start = .ok 0
  /-- Each bit is in its slot. -/
  bit : ∀ (i : Nat) (hi : i < bits.length),
    b.layout.read t ((b.padding + i) % b.perRow + 1) (start + (b.padding + i) / b.perRow) =
      .ok (Felt.ofBool bits[i])
  /-- The first row starts from zero. -/
  first : b.layout.read t 0 start = .ok 0
  /-- Every other row starts from the sum of the row above. -/
  next : ∀ r, r + 1 < b.rows →
    b.layout.read t 0 (start + (r + 1)) = b.layout.read t b.sumColumn (start + r)
  /-- The sum of a row is the number that the bits spell up to its end. -/
  sum : ∀ r < b.rows, b.layout.read t b.sumColumn (start + r) =
    .ok (binaryNumber (bits.take ((r + 1) * b.perRow - b.padding)) : Felt k)

/-- The sum before a row is the number that the bits spell up to there. -/
theorem sumBefore_eq (r : Nat) :
    sumBefore k b bits r = binaryNumber (bits.take (r * b.perRow - b.padding)) := by
  rw [sumBefore, padded, List.take_append, List.length_replicate, List.take_replicate,
    sumAfter_append, sumAfter_zeros, sumAfter_eq]

/-- The sum before a row stands at its front. -/
theorem Shows.cellAt_front (h : b.Shows t start bits) {r : Nat} (hr : r < b.rows) :
    t.cellAt (b.layout.cell 0 (start + r)) = sumBefore k b bits r := h r hr 0 _ rfl

/-- A slot before the first bit. -/
theorem Shows.cellAt_padding (h : b.Shows t start bits) {slot : Nat} (hslot : slot < b.padding) :
    t.cellAt (b.layout.cell (slot + 1) start) = 0 :=
  h 0 b.rows_pos (slot + 1) 0 (getElem?_rowCells_bit (getElem?_slots_padding hslot))

/-- **Written rows** are laid out. -/
theorem Shows.laidOut (h : b.Shows t start bits) (hl : t.HasBitColumns b.layout)
    (hbits : bits.length = b.bits) (hrows : start + b.rows ≤ t.rows) : b.LaidOut t start bits := by
  have hwidth := b.width_eq
  have hpos := b.rows_pos
  have hlast : ∀ r < b.rows, b.layout.read t b.sumColumn (start + r) =
      .ok (sumBefore k b bits (r + 1)) := by
    intro r hr
    rw [hl.read_eq b.sumColumn_lt (by omega), h.cellAt_last hbits hr]
  refine ⟨fun slot hslot => ?_, fun i hi => ?_, ?_, fun r hr => ?_, fun r hr => ?_⟩
  · have hlt := hslot.trans b.padding_lt
    rw [hl.read_eq (by omega) (by omega), h.cellAt_padding hslot]
  · obtain ⟨hcolumn, hrow⟩ :=
      slot_lt (List.mem_range'_1.mpr ⟨Nat.le_add_right b.padding i, by omega⟩)
    rw [hl.read_eq hcolumn (by omega), h.cellAt_bit hbits (List.getElem?_eq_getElem hi)]
  · have hfront := h.cellAt_front hpos
    rw [Nat.add_zero, sumBefore_zero] at hfront
    rw [hl.read_eq (by omega) (by omega), hfront]
  · rw [hl.read_eq (by omega) (by omega), h.cellAt_front hr, hlast r (Nat.lt_of_succ_lt hr)]
  · rw [hlast r hr, sumBefore_eq]

/-! ### The cells that are named -/

/-- The cells of the bits are different from each other. -/
theorem nodup_bitVariables (hnodup : b.layout.witness.Nodup) (hsmall : start + b.rows ≤ 2 ^ 31) :
    (b.bitVariables start).Nodup := by
  refine List.Nodup.map_on (fun slot hslot slot' hslot' hsame => ?_) List.nodup_range'
  obtain ⟨hcolumn, hrow⟩ := slot_lt hslot
  obtain ⟨hcolumn', hrow'⟩ := slot_lt hslot'
  have hcell := congrArg (Variable.cellOf · 0 0) hsame
  simp only [Layout.cellOf_cellVariable _ _ (show start + slot / b.perRow < 2 ^ 31 by omega),
    Layout.cellOf_cellVariable _ _ (show start + slot' / b.perRow < 2 ^ 31 by omega)] at hcell
  -- A slot is told from its place in the row and the row.
  obtain ⟨hplace, hplaceRow⟩ := Layout.cell_injective hnodup hcolumn hcolumn' hcell
  rw [← Nat.div_add_mod slot b.perRow, ← Nat.div_add_mod slot' b.perRow,
    Nat.succ.inj hplace, Nat.add_left_cancel hplaceRow]

/-- They stand in the rows. -/
theorem row_bitVariables (hsmall : start + b.rows ≤ 2 ^ 31) (anchor rows : Nat) :
    ∀ v ∈ b.bitVariables start, ∃ r < b.rows, v.row anchor rows = .ok (some (start + r)) := by
  intro v hv
  obtain ⟨slot, hslot, rfl⟩ := List.mem_map.mp hv
  obtain ⟨-, hrow⟩ := slot_lt hslot
  have hrotation := b.layout.toInt_rotation_cellVariable (slot % b.perRow + 1)
    (show start + slot / b.perRow < 2 ^ 31 by omega)
  refine ⟨_, hrow, ?_⟩
  show (if Int32.toInt _ < 0 then _ else _) = _
  rw [hrotation, if_neg (not_lt.mpr (Int.natCast_nonneg _)), Int.toNat_natCast]

/-- The first slot in a row that is too large. -/
theorem exists_first_slot (hlarge : 2 ^ 31 < start + b.rows) :
    ∃ slot ∈ List.range' b.padding b.bits, start + slot / b.perRow = max start (2 ^ 31) ∧
      ∀ slot' < slot, b.padding ≤ slot' → start + slot' / b.perRow < 2 ^ 31 := by
  have hpos := b.perRow_pos
  have hbits := b.bits_pos
  have hpadding := b.padding_lt
  have hslots := b.padding_add_bits
  -- It is at the front of its row, or behind the padding if this is the first row.
  set r := 2 ^ 31 - start
  have hr : r < b.rows := by have := b.rows_pos; omega
  have hfront : r * b.perRow < b.rows * b.perRow := Nat.mul_lt_mul_of_pos_right hr hpos
  have hbehind : max b.padding (r * b.perRow) < (r + 1) * b.perRow := by
    rw [Nat.succ_mul]
    exact max_lt (by omega) (by omega)
  refine ⟨max b.padding (r * b.perRow), List.mem_range'_1.mpr ⟨le_max_left _ _, by omega⟩, ?_, ?_⟩
  · rw [Nat.div_eq_of_lt_le (le_max_right _ _) hbehind]
    omega
  · intro slot' hlt hle
    have habove : slot' / b.perRow < r := (Nat.div_lt_iff_lt_mul hpos).mpr (by omega)
    exact Nat.add_lt_of_lt_sub' habove

/-- **No cells** are named if one of the rows is too large for a variable.  Rows are taken from the
first one on, so it is the first one of these that is reported. -/
theorem cells_eq_error (hlarge : 2 ^ 31 < start + b.rows) (hcount : start + b.rows < 2 ^ 64) :
    b.cells start = .error (.absoluteRow (max start (2 ^ 31))) := by
  obtain ⟨slot, hslot, hrow, hbefore⟩ := b.exists_first_slot hlarge
  have hstarts := range'_concat_prefix hslot
  rw [cells_eq_mapM hcount.le]
  refine mapM_eq_error.mpr ⟨_, slot, hstarts, fun slot' hslot' => ?_, ?_⟩
  · obtain ⟨hcolumn, -⟩ := slot_lt (hstarts.subset (List.mem_append_left _ hslot'))
    obtain ⟨hle, hlt⟩ := List.mem_range'_1.mp hslot'
    exact ⟨_, Layout.witnessCell_eq hcolumn (hbefore slot' (by omega) hle)⟩
  · rw [hrow]
    exact Layout.witnessCell_eq_error (slot_lt hslot).1 (le_max_right _ _)

theorem sumCell_eq_error (hlarge : 2 ^ 31 < start + b.rows) (hcount : start + b.rows < 2 ^ 64) :
    b.sumCell start = .error (.absoluteRow (start + b.rows - 1)) := by
  have hadd : Count.add start b.rows = .ok (start + b.rows) := Count.check_of_lt hcount
  rw [sumCell, hadd]
  exact Layout.witnessCell_eq_error b.sumColumn_lt (by omega)

/-! ### Bits that are written -/

/-- **Bits stand where their cells are.**  On a layout with at least three columns, all different,
bits are written to any rows that the table has, and the number they spell is given back.  The rows
are laid out as `LaidOut` says.  As far as absolute variables can name the rows, the cells of the
bits are different ones in these rows that hold the bits, and the cell of the number holds the
number; beyond that, no cells are named. -/
theorem runs_laidOut {a : Assembly k} {n : Nat} (name : String) (checked : Bool) (bits : List Bool)
    (hl : a.table.HasBitColumns l) (hn : 0 < n ∧ n ≤ maxBits) (hbits : bits.length = n)
    (hcount : a.table.rows < 2 ^ 64) :
    ∃ b, new name l n checked = .ok b ∧ ∀ start, start + b.rows ≤ a.table.rows →
      ∃ t, Runs (b.assign bits start) a (binaryNumber bits : Felt k) ⟨a.circuit, t⟩ ∧
        b.LaidOut t start bits ∧
        (start + b.rows ≤ 2 ^ 31 → ∃ cells sum, b.cells start = .ok cells ∧
          b.sumCell start = .ok sum ∧ cells.Nodup ∧
          (∀ v ∈ cells, ∃ r < b.rows, v.row 0 t.rows = .ok (some (start + r))) ∧
          cells.mapM t.tryValue = .ok (bits.map Felt.ofBool) ∧
          t.tryValue sum = .ok (binaryNumber bits : Felt k)) ∧
        (2 ^ 31 < start + b.rows → b.cells start = .error (.absoluteRow (max start (2 ^ 31))) ∧
          b.sumCell start = .error (.absoluteRow (start + b.rows - 1))) := by
  set b : BitRows := ⟨name, l, n, checked, hl.three_le, hn.1, hn.2⟩
  refine ⟨b, new_eq hl.three_le hn.1 hn.2, fun start hrows => ?_⟩
  have hlayout : a.table.HasLayout b.onWitness.layout := Table.HasBitColumns.hasLayout hl
  obtain ⟨t, hrun, hchange, hwritten⟩ :=
    runs_assign hlayout hrows (show start + b.rows ≤ 2 ^ 64 by omega) hbits
  rw [assign_onWitness, sumAfter_eq] at hrun
  have hshows : b.Shows t start bits := hwritten
  have hrows' : start + b.rows ≤ t.rows := hchange.rows_eq ▸ hrows
  refine ⟨t, hrun, hshows.laidOut (hchange.hasBitColumns hl) hbits hrows', fun hsmall => ?_,
    fun hlarge => ⟨cells_eq_error hlarge (by omega), sumCell_eq_error hlarge (by omega)⟩⟩
  refine ⟨_, _, cells_eq hsmall, sumCell_eq hsmall, nodup_bitVariables hl.nodup hsmall,
    row_bitVariables hsmall 0 t.rows, ?_, ?_⟩
  · exact Gadget.mapM_bitVariables_of_shows (b := b.onWitness) hwritten hbits
      (hchange.hasLayout hlayout) hrows' hsmall
  · have hpos := b.rows_pos
    rw [Layout.tryValue_cellVariable (by omega), ← sumAfter_eq]
    exact ⟨(hchange.hasLayout hlayout).has b.sumColumn_lt (by omega), hshows.cellAt_sum hbits⟩

/-- Three bits in the second and the third row, two to a row, and what their cells hold. -/
theorem runs_laidOut_three :
    ∃ b t cells sum, new "range_check" (.contiguous 4 0) 3 true = .ok b ∧
      Runs (b.assign [true, false, true] 1) ⟨.empty, .fiveColumns⟩ (.ofNat 5) ⟨.empty, t⟩ ∧
      b.LaidOut t 1 [true, false, true] ∧ b.cells 1 = .ok cells ∧ b.sumCell 1 = .ok sum ∧
      cells.mapM t.tryValue = .ok [1, 0, 1] ∧ t.tryValue sum = .ok (.ofNat 5) := by
  have hlayout : Table.fiveColumns.HasLayout (.contiguous 4 0) :=
    Table.hasLayout_contiguous (by decide) (by decide)
  have hcolumns : Table.fiveColumns.HasBitColumns (.contiguous 4 0) :=
    ⟨by decide, hlayout.nodup, hlayout.witness_lt⟩
  obtain ⟨b, hb, hruns⟩ := runs_laidOut (a := ⟨.empty, .fiveColumns⟩) "range_check" true
    [true, false, true] hcolumns (by decide) rfl (by decide)
  obtain rfl := Except.ok.inj hb
  obtain ⟨t, hrun, hlaid, hnamed, -⟩ := hruns 1 (by decide)
  obtain ⟨cells, sum, hcells, hsum, -, -, hvalues, hvalue⟩ := hnamed (by decide)
  exact ⟨_, t, cells, sum, hb, hrun, hlaid, hcells, hsum, hvalues, hvalue⟩

end BitRows

end Plonkish
