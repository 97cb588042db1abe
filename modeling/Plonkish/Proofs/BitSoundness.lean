import Plonkish.Proofs.Completeness
import Plonkish.Proofs.Installed

/-!
# Proofs — bits in accepted tables

In an accepted table, the last sum of some bit rows is the sum of the digits that the rows hold,
whoever filled them in (`Gadget.Enforced.tryValue_sum`), and the digits are bits if the rows are
checked (`Gadget.Enforced.isBit`).  They are the binary digits of some number below `2 ^ n`, for `n`
bits, and the sum is this number, reduced (`exists_binaryDigits`).

* `Gadget.exists_accepted_number`: the rows of an accepted table can hold the digits of any number
  below `2 ^ n` that the input is the residue of.
* `Gadget.rangeCheck_sound`: the input of a range check is below `2 ^ n`.
* `Gadget.decomposition_sound`: the outputs of a decomposition are the binary digits of a number
  below `2 ^ n` that the input is the residue of.  It is the input itself if the order of the field
  is at least `2 ^ n`, or whenever the next number with this residue is.
* `Gadget.decomposition_zero`: otherwise it need not be.  Over BabyBear, the digits of the order are
  an accepted decomposition of zero into 31 bits.
-/

namespace Plonkish

variable {k : BaseField} {t : Table k} {input : List Variable} {start : Nat}

open Build (Runs)

/-! ### Digits that are bits -/

theorem exists_binaryDigits_eq (bits : List Bool) :
    ∃ n < 2 ^ bits.length, binaryDigits bits.length n = bits := by
  have hlen : bits.reverse.length = bits.length := List.length_reverse
  refine ⟨Nat.ofBits fun i : Fin bits.length => bits.reverse.get (i.cast hlen.symm),
    Nat.ofBits_lt_two_pow _, ?_⟩
  rw [binaryDigits, List.reverse_eq_iff]
  refine List.ext_getElem (by simp) ?_
  intro i hi _
  rw [List.length_map, List.length_range] at hi
  rw [List.getElem_map, List.getElem_range, Nat.testBit_ofBits_lt _ _ hi]
  rfl

/-- **Digits that are bits** are the binary digits of a number, and add up to it. -/
theorem exists_binaryDigits {digits : List (Felt k)} (h : ∀ d ∈ digits, d.IsBit) :
    ∃ n < 2 ^ digits.length, digits = (binaryDigits digits.length n).map Felt.ofBool ∧
      digitSum 0 digits = n := by
  obtain ⟨n, hn, hbits⟩ := exists_binaryDigits_eq (digits.map Felt.toBool)
  rw [List.length_map] at hn hbits
  have hdigits : digits = (binaryDigits digits.length n).map Felt.ofBool := by
    rw [hbits, List.map_map]
    refine (List.map_id digits).symm.trans (List.map_congr_left fun d hd => ?_)
    exact (Felt.ofBool_toBool (h d hd)).symm
  refine ⟨n, hn, hdigits, ?_⟩
  calc digitSum 0 digits = sumAfter 0 (binaryDigits digits.length n) := by
        rw [← digitSum_ofBool, ← hdigits]
    _ = n := sumAfter_binaryDigits hn

theorem BitOrder.mapM_arrange {ε α β : Type} (order : BitOrder) {f : α → Except ε β} {l : List α}
    {r : List β} (h : l.mapM f = .ok r) : (order.arrange l).mapM f = .ok (order.arrange r) :=
  mapM_eq_ok.mpr (order.forall₂_arrange (mapM_eq_ok.mp h))

/-! ### The digits that rows hold -/

namespace BitRows

/-- What a slot of the rows holds. -/
def slotAt (b : BitRows) (t : Table k) (start i : Nat) : Felt k :=
  t.cellAt (b.layout.cell (i % b.perRow + 1) (start + i / b.perRow))

/-- The digits that the rows hold, most significant first. -/
def digitsAt (b : BitRows) (t : Table k) (start : Nat) : List (Felt k) :=
  (List.range' b.padding b.bits).map (b.slotAt t start)

variable {b : BitRows}

theorem slotAt_eq {r j : Nat} (hj : j < b.perRow) :
    b.slotAt t start (r * b.perRow + j) = t.cellAt (b.layout.cell (j + 1) (start + r)) := by
  have hmod : (r * b.perRow + j) % b.perRow = j := by
    rw [Nat.mul_add_mod_self_right, Nat.mod_eq_of_lt hj]
  have hdiv : (r * b.perRow + j) / b.perRow = r := by
    rw [Nat.mul_comm, Nat.mul_add_div b.perRow_pos, Nat.div_eq_of_lt hj, Nat.add_zero]
  rw [slotAt, hmod, hdiv]

theorem length_digitsAt : (b.digitsAt t start).length = b.bits := by
  rw [digitsAt, List.length_map, List.length_range']

end BitRows

theorem Gadget.inputCells_bits {role : BitRole} {b : BitRows}
    (hrole : ∀ order, role ≠ .composition order) : (bits role b : Gadget k).inputCells start =
      [b.layout.cellVariable b.sumColumn (start + b.rows - 1)] := by
  cases role with
  | composition order => exact absurd rfl (hrole order)
  | decomposition order => rfl
  | rangeCheck => rfl

namespace Gadget.Enforced

variable {role : BitRole} {b : BitRows} {r : Nat}

theorem bits_vanish (h : (bits role b).Enforced t input start) (hr : r < b.rows) :
    ∀ e ∈ (b.constraints (r = 0) : List (Expr k)), e.value (t.valueAt (start + r)) = 0 :=
  h.vanish hr (getElem?_constraintLists_bits hr)

/-- The last sum of a row, from the first one. -/
theorem sum_row (h : (bits role b).Enforced t input start) (hr : r < b.rows) :
    t.cellAt (b.layout.cell b.sumColumn (start + r)) =
      digitSum (t.cellAt (b.layout.cell 0 (start + r)))
        ((List.range b.perRow).map fun j => b.slotAt t start (r * b.perRow + j)) := by
  have hexist : start + b.rows ≤ t.rows := h.exist
  have hrow : start + r < t.rows := by omega
  obtain ⟨hsum, -⟩ := BitRows.forall_constraints.mp (h.bits_vanish hr)
  have hlen : ((List.range b.perRow).map fun j => b.slotAt t start (r * b.perRow + j)).length =
      b.perRow := by rw [List.length_map, List.length_range]
  rw [Expr.value_sub, sub_eq_zero, BitRows.value_rowSum hlen, BitRows.value_column hrow] at hsum
  · exact hsum.symm
  · intro i x hx
    rw [BitRows.value_column hrow]
    cases i with
    | zero => exact Option.some.inj hx
    | succ j =>
        rw [List.getElem?_cons_succ] at hx
        obtain ⟨hj, rfl⟩ := List.getElem?_eq_some_iff.mp hx
        rw [hlen] at hj
        rw [List.getElem_map, List.getElem_range, BitRows.slotAt_eq hj]

/-- **The last sum of a row** is the sum of all digits up to it: by induction over the rows, each of
which starts from the last sum of the row above. -/
theorem sum_eq (h : (bits role b).Enforced t input start) (hr : r < b.rows) :
    t.cellAt (b.layout.cell b.sumColumn (start + r)) =
      digitSum 0 ((List.range ((r + 1) * b.perRow)).map (b.slotAt t start)) := by
  have hexist : start + b.rows ≤ t.rows := h.exist
  induction r with
  | zero =>
      obtain ⟨-, hfirst, -⟩ := BitRows.forall_constraints.mp (h.bits_vanish hr)
      have hzero := (hfirst (decide_eq_true rfl)).1
      rw [BitRows.value_column (by omega)] at hzero
      rw [h.sum_row hr, hzero, Nat.zero_add, Nat.one_mul]
      simp only [Nat.zero_mul, Nat.zero_add]
  | succ r ih =>
      obtain ⟨-, -, hnext, -⟩ := BitRows.forall_constraints.mp (h.bits_vanish hr)
      have habove := hnext (decide_eq_false (Nat.succ_ne_zero r))
      rw [Expr.value_sub, sub_eq_zero, BitRows.value_column (by omega), ← Nat.add_assoc,
        BitRows.value_column_above (by omega), ih (Nat.lt_of_succ_lt hr)] at habove
      rw [h.sum_row hr, ← Nat.add_assoc, habove, Nat.succ_mul (r + 1), List.range_add,
        List.map_append, digitSum_append, List.map_map]
      rfl

/-- The first slots are zero. -/
theorem slotAt_of_lt_padding (h : (bits role b).Enforced t input start) {i : Nat}
    (hi : i < b.padding) : b.slotAt t start i = 0 := by
  have hexist : start + b.rows ≤ t.rows := h.exist
  have hpos := b.rows_pos
  obtain ⟨-, hfirst, -⟩ := BitRows.forall_constraints.mp (h.bits_vanish hpos)
  have hzero := (hfirst (decide_eq_true rfl)).2 i hi
  rw [BitRows.value_column (by omega)] at hzero
  rw [← hzero, ← BitRows.slotAt_eq (hi.trans b.padding_lt), Nat.zero_mul, Nat.zero_add]

/-- **The last sum** is the sum of the digits. -/
theorem sum_last (h : (bits role b).Enforced t input start) :
    t.cellAt (b.layout.cell b.sumColumn (start + b.rows - 1)) = digitSum 0
      (b.digitsAt t start) := by
  have hpos := b.rows_pos
  have hpadding : (List.range b.padding).map (b.slotAt t start) = List.replicate b.padding 0 := by
    rw [List.eq_replicate_iff]
    refine ⟨by rw [List.length_map, List.length_range], ?_⟩
    rw [List.forall_mem_map]
    exact fun i hi => h.slotAt_of_lt_padding (List.mem_range.mp hi)
  rw [Nat.add_sub_assoc hpos, h.sum_eq (Nat.sub_lt hpos Nat.one_pos), Nat.sub_add_cancel hpos,
    ← b.padding_add_bits, List.range_add, List.map_append, digitSum_append, hpadding,
      digitSum_zeros,
    BitRows.digitsAt, List.range'_eq_map_range]

/-! ### The cells of the number and of the digits -/

theorem has_cell (h : (bits role b).Enforced t input start) (hr : r < b.rows) {i : Nat} {e : Expr k}
    (he : e ∈ (b.constraints (r = 0) : List (Expr k)))
    (hv : .relativeTo .witness (b.layout.witness.getD i 0) 0 ∈ e.occurrences) :
    t.Has (b.layout.cell i (start + r)) := by
  have hexist : start + b.rows ≤ t.rows := h.exist
  have hcell : t.Has ((Variable.relativeTo .witness (b.layout.witness.getD i 0) 0).cellOf t.rows
      (start + r)) := h.reads hr (getElem?_constraintLists_bits hr) e he _ hv
  rwa [Variable.cellOf, Variable.rowOf_relativeTo_zero _ _ (by omega)] at hcell

/-- **The cell of the number** holds the sum of the digits. -/
theorem tryValue_sum (h : (bits role b).Enforced t input start) :
    t.tryValue (b.layout.cellVariable b.sumColumn (start + b.rows - 1)) =
      .ok (digitSum 0 (b.digitsAt t start)) := by
  have hrows : start + b.rows ≤ 2 ^ 31 := h.rows_le
  have hpos := b.rows_pos
  rw [Layout.tryValue_cellVariable (by omega)]
  refine ⟨?_, h.sum_last⟩
  rw [Nat.add_sub_assoc hpos]
  refine h.has_cell (Nat.sub_lt hpos Nat.one_pos) List.mem_cons_self ?_
  rw [Expr.occurrences_sub]
  exact List.mem_append_right _ (by simp [BitRows.column])

/-- **The cells of the digits**, if the rows are checked. -/
theorem mapM_bitVariables (h : (bits role b).Enforced t input start) (hchecked : b.checked = true) :
    (b.bitVariables start).mapM t.tryValue = .ok (b.digitsAt t start) := by
  have hrows : start + b.rows ≤ 2 ^ 31 := h.rows_le
  rw [BitRows.bitVariables, BitRows.digitsAt, List.mapM_map, mapM_eq_ok, List.forall₂_map_right_iff]
  refine List.forall₂_same.mpr fun slot hslot => ?_
  obtain ⟨-, hr⟩ := BitRows.slot_lt hslot
  refine (Layout.tryValue_cellVariable (by omega)).mpr ⟨?_, rfl⟩
  have hmem : (b.column (slot % b.perRow + 1) 0 * (.constant 1 - b.column (slot % b.perRow + 1) 0) :
      Expr k) ∈ b.constraints (slot / b.perRow = 0) :=
    (BitRows.forall_constraints.mp fun e he => he).2.2.2 hchecked _ (Nat.mod_lt _ b.perRow_pos)
  refine h.has_cell hr hmem ?_
  rw [BitRows.column, Expr.occurrences_mul (Expr.isEmpty_variable _) rfl]
  simp

/-- **The digits are bits**, if the rows are checked. -/
theorem isBit (h : (bits role b).Enforced t input start) (hchecked : b.checked = true) :
    ∀ d ∈ b.digitsAt t start, d.IsBit := by
  have hexist : start + b.rows ≤ t.rows := h.exist
  rw [BitRows.digitsAt, List.forall_mem_map]
  intro slot hslot
  obtain ⟨-, hr⟩ := BitRows.slot_lt hslot
  obtain ⟨-, -, -, hbits⟩ := BitRows.forall_constraints.mp (h.bits_vanish hr)
  have hbit := hbits hchecked _ (Nat.mod_lt slot b.perRow_pos)
  rw [Expr.value_mul, Expr.value_sub, Expr.value_constant, BitRows.value_column (by omega),
    mul_eq_zero, sub_eq_zero] at hbit
  exact hbit.imp_right Eq.symm

/-- **The number**, if the rows are checked: the digits are those of a number with `b.bits` bits. -/
theorem exists_number (h : (bits role b).Enforced t input start) (hchecked : b.checked = true) :
    ∃ n < 2 ^ b.bits, b.digitsAt t start = (binaryDigits b.bits n).map Felt.ofBool ∧
      t.tryValue (b.layout.cellVariable b.sumColumn (start + b.rows - 1)) = .ok (n : Felt k) := by
  obtain ⟨n, hn, hdigits, hsum⟩ := exists_binaryDigits (h.isBit hchecked)
  rw [BitRows.length_digitsAt] at hn hdigits
  exact ⟨n, hn, hdigits, h.tryValue_sum.trans (congrArg _ hsum)⟩

/-- A single input is copied to the cell of the number, unless it is to be composed of bits. -/
theorem tryValue_input {v : Variable} (h : (bits role b).Enforced t [v] start)
    (hrole : ∀ order, role ≠ .composition order) {x : Felt k}
    (hx : t.tryValue (b.layout.cellVariable b.sumColumn (start + b.rows - 1)) = .ok x) :
    t.tryValue v = .ok x := by
  have hcopied := h.forall₂_copied
  rw [inputCells_bits hrole, List.forall₂_cons] at hcopied
  obtain ⟨⟨y, hv, hy⟩, -⟩ := hcopied
  rw [hv, Except.ok.inj (hy.symm.trans hx)]

end Gadget.Enforced

/-! ### Filling in the digits of a number -/

namespace Gadget

variable {role : BitRole} {b : BitRows} {v : Variable} {bits : List Bool}

/-- The cells of the bits exist. -/
theorem holdsAbsolute_bitVariables (hl : t.HasLayout b.layout) (hrows : start + b.rows ≤ t.rows)
    (hsmall : start + b.rows ≤ 2 ^ 31) : ∀ w ∈ b.bitVariables start, t.HoldsAbsolute w := by
  intro w hw
  obtain ⟨slot, hslot, rfl⟩ := List.mem_map.mp hw
  obtain ⟨hcolumn, hr⟩ := BitRows.slot_lt hslot
  exact hl.holdsAbsolute hcolumn (by omega) (by omega)

/-- The cells of the bits hold them. -/
theorem map_bitVariables_of_shows (h : b.Shows t start bits) (hbits : bits.length = b.bits)
    (hsmall : start + b.rows ≤ 2 ^ 31) :
    (b.bitVariables start).map (t.valueAt 0) = bits.map Felt.ofBool := by
  rw [← List.forall₂_eq_eq_eq, List.forall₂_map_left_iff]
  exact (forall₂_bitVariables h hbits hsmall).flip

theorem mapM_bitVariables_of_shows (h : b.Shows t start bits) (hbits : bits.length = b.bits)
    (hl : t.HasLayout b.layout) (hrows : start + b.rows ≤ t.rows)
    (hsmall : start + b.rows ≤ 2 ^ 31) :
    (b.bitVariables start).mapM t.tryValue = .ok (bits.map Felt.ofBool) := by
  rw [← map_bitVariables_of_shows h hbits hsmall]
  exact mapM_eq_map fun w hw => Table.tryValue_eq (holdsAbsolute_bitVariables hl hrows hsmall w hw)

theorem length_constraintLists_bits_le :
    (Gadget.bits role b : Gadget k).constraintLists.length ≤ 2 := by
  rw [constraintLists]
  split
  · exact le_rfl
  · exact Nat.le_succ 1

/-- Rows that show some bits are accepted if the input is the number that the bits add up to. -/
theorem exists_accepted_of_shows (hrole : ∀ order, role ≠ .composition order)
    (hl : t.HasLayout b.layout) (hrows : start + b.rows ≤ t.rows) (hsmall : t.rows ≤ 2 ^ 31)
    (hv : t.HoldsAbsolute v) (hkind : v.kind ≠ .selector) (hmem : t.Affords 2)
    (hnone : t.NoneEnabled) (hshows : b.Shows t start bits) (hbits : bits.length = b.bits)
    (hvalue : t.valueAt 0 v = sumAfter 0 bits) :
    ∃ a, Runs ((Gadget.bits role b).build [v] start) ⟨.empty, t⟩
        ((Gadget.bits role b : Gadget k).outputCells start) a ∧
      t.Changes a.table {c | c.kind = .selector} ∧ a.circuit.violations a.table = .ok [] := by
  have hcells : (Gadget.bits role b : Gadget k).inputCells start =
      [b.layout.cellVariable b.sumColumn (start + b.rows - 1)] := inputCells_bits hrole
  have hvanish : ∀ r < b.rows, ∀ constraints,
      (Gadget.bits role b : Gadget k).constraintLists[min r 1]? = some constraints →
        ∀ e ∈ constraints, e.value (t.valueAt (start + r)) = 0 := by
    intro r hr constraints hgate
    rw [getElem?_constraintLists_bits hr] at hgate
    obtain rfl := Option.some.inj hgate
    exact hshows.constraints_vanish hbits hrows hr
  have hsum : t.valueAt 0 (b.layout.cellVariable b.sumColumn (start + b.rows - 1)) =
      sumAfter 0 bits := by
    have hpos := b.rows_pos
    rw [Table.valueAt, Layout.cellOf_cellVariable _ _ (by omega), hshows.cellAt_sum hbits]
  have hcopied : ∀ copy ∈ (Gadget.bits role b : Gadget k).copyPairs [v] start,
      copy.Satisfied t := by
    rw [copyPairs, hcells]
    exact List.forall_mem_singleton.mpr (hvalue.trans hsum.symm)
  exact exists_accepted (g := Gadget.bits role b) trivial hl hrows hsmall
    (List.forall_mem_singleton.mpr ⟨hv, hkind⟩) (by rw [hcells]; rfl)
    (hmem.mono length_constraintLists_bits_le) hnone rfl hvanish hcopied

/-- **Any number** that the input is the residue of, with no more binary digits than there are bits,
can be the one that the rows of an accepted table hold the digits of. -/
theorem exists_accepted_number (role : BitRole) (b : BitRows) (start m : Nat)
    (hrole : ∀ order, role ≠ .composition order)
    (hl : t.HasLayout b.layout) (hrows : start + b.rows ≤ t.rows) (hsmall : t.rows ≤ 2 ^ 31)
    (hv : t.HoldsAbsolute v) (hpublic : v.kind = .publicInput) (hmem : t.Affords 2)
    (hnone : t.NoneEnabled) (hheld : t.Held) (hm : m < 2 ^ b.bits) (hvalue : t.valueAt 0 v = m) :
    ∃ t' a, Runs ((Gadget.bits role b).build [v] start) ⟨.empty, t'⟩
        ((Gadget.bits role b : Gadget k).outputCells start) a ∧
      a.table.Held ∧ a.circuit.violations a.table = .ok [] ∧ a.table.tryValue v = .ok (m : Felt k) ∧
      (b.bitVariables start).mapM a.table.tryValue =
        .ok ((binaryDigits b.bits m).map Felt.ofBool) := by
  have hbits := length_binaryDigits b.bits m
  obtain ⟨t', hwrite, hchanges, hshows⟩ :=
    BitRows.runs_assign (a := ⟨.empty, t⟩) hl hrows ((hrows.trans hsmall).trans (by decide)) hbits
  have hframe : ∀ c, c.kind ≠ .witness → t'.cellAt c = t.cellAt c := by
    refine fun c hc => hchanges.frame c ?_
    rintro ⟨r, -, i, -, rfl⟩
    exact hc rfl
  have hl' := hchanges.hasLayout hl
  have hrows' : start + b.rows ≤ t'.rows := hchanges.rows_eq ▸ hrows
  have hsmall' : t'.rows ≤ 2 ^ 31 := hchanges.rows_eq ▸ hsmall
  have hmem' : t'.Affords 2 := by rwa [Table.Affords, hchanges.rows_eq]
  have hv' := hchanges.holdsAbsolute hv
  have hkind : v.kind ≠ .selector := by rw [hpublic]; decide
  have hvalue' : t'.valueAt 0 v = (m : Felt k) := by
    have hother : v.kind ≠ .witness := by rw [hpublic]; decide
    rw [← hvalue, Table.valueAt, hchanges.rows_eq]
    exact hframe _ hother
  have hsum : sumAfter 0 (binaryDigits b.bits m) = (m : Felt k) := sumAfter_binaryDigits hm
  have hother : ColumnKind.selector ≠ .witness := by decide
  have hnone' : t'.NoneEnabled := fun s row => (hframe ⟨.selector, s, row⟩ hother).trans
    (hnone s row)
  obtain ⟨a, hrun, hselectors, haccepted⟩ := exists_accepted_of_shows hrole hl' hrows' hsmall' hv'
    hkind hmem' hnone' hshows hbits (hvalue'.trans hsum.symm)
  have hheld' := (keeps_build _ _ _ hrun).held ((BitRows.keeps_assign _ _ _ hwrite).held hheld)
  refine ⟨t', a, hrun, hheld', haccepted, ?_, ?_⟩
  · rw [hselectors.tryValue_eq hv' hkind, hvalue']
  · have hshows' : b.Shows a.table start (binaryDigits b.bits m) :=
      hshows.mono fun c hc => hselectors.frame c fun hselector => hother (hselector.symm.trans hc)
    rw [← hselectors.rows_eq] at hrows' hsmall'
    exact mapM_bitVariables_of_shows hshows' hbits (hselectors.hasLayout hl') hrows'
      (hrows'.trans hsmall')

end Gadget

/-! ### Range checks and decompositions -/

theorem Table.held_twoInputs : Table.twoInputs.Held := fun kind => by cases kind <;> decide

theorem Felt.val_natCast (n : Nat) : (n : Felt k).val = n % k.order := rfl

/-- A number is the least one with its residue, if it is below the next one. -/
theorem Felt.eq_val_of_lt {n : Nat} {x : Felt k} (hx : (n : Felt k) = x)
    (hn : n < x.val + k.order) :
    n = x.val := by
  rw [← hx, val_natCast] at hn ⊢
  have hdiv := Nat.mod_add_div n k.order
  have hquotient : n / k.order = 0 := by
    by_contra hne
    have hle : k.order * 1 ≤ k.order * (n / k.order) :=
      Nat.mul_le_mul_left _ (Nat.one_le_iff_ne_zero.mpr hne)
    omega
  rw [hquotient, Nat.mul_zero, Nat.add_zero] at hdiv
  exact hdiv.symm

theorem BitRows.of_new {name : String} {l : Layout} {n : Nat} {checked : Bool} {b : BitRows}
    (h : new name l n checked = .ok b) : b.bits = n ∧ b.checked = checked := by
  obtain ⟨_, -, h⟩ := bind_eq_ok.mp h
  split at h
  · obtain rfl := Except.ok.inj h
    exact ⟨rfl, rfl⟩
  · cases h

namespace Gadget

variable {l : Layout} {n : Nat} {g : Gadget k} {a a' b : Assembly k} {v : Variable}
  {outs : List Variable}

/-- **Soundness of range checks**: where a table is accepted that asks for an instance, the input
has no more binary digits than the instance has bits. -/
theorem rangeCheck_sound (hg : rangeCheck l n = .ok g) (hreg : a.circuit.Registered)
    (hrun : Runs (g.build [v] start) a outs a') (hkept : a'.KeptIn b) (hheld : b.table.Held)
    (haccepted : b.circuit.violations b.table = .ok []) :
    ∃ x, b.table.tryValue v = .ok x ∧ x.val < 2 ^ n := by
  obtain ⟨rows, hrows, rfl⟩ := bind_pure_eq_ok.mp hg
  obtain ⟨rfl, hchecked⟩ := BitRows.of_new hrows
  have hmade : (bits .rangeCheck rows : Gadget k).Made := trivial
  obtain ⟨henforced, -⟩ := enforced_of_build hmade hreg (by rfl) hrun hkept hheld haccepted
  obtain ⟨m, hm, -, hsum⟩ := henforced.exists_number hchecked
  refine ⟨m, henforced.tryValue_input nofun hsum, ?_⟩
  rw [Felt.val_natCast]
  exact (Nat.mod_le m k.order).trans_lt hm

theorem rangeCheck_sound_three :
    ∃ g t a, rangeCheck (.contiguous 3 0) 2 = .ok g ∧
      Runs (g.build [⟨.publicInput, 0, 0, false⟩] 0) ⟨.empty, t⟩ [] a ∧
      a.circuit.violations (k := .goldilocks) a.table = .ok [] ∧
      ∃ x, a.table.tryValue ⟨.publicInput, 0, 0, false⟩ = .ok x ∧ x.val < 2 ^ 2 := by
  obtain ⟨t, a, hrun, hheld, haccepted, -⟩ := exists_accepted_number .rangeCheck
    ⟨"range_check", .contiguous 3 0, 2, true, by decide, by decide, by decide⟩ 0 3
    nofun Table.hasLayout_twoInputs (by decide) (by decide)
    (Table.holdsAbsolute_twoInputs 0 (by decide)) rfl (by decide) (Table.noneEnabled_of_width rfl)
    Table.held_twoInputs (by decide) (by decide)
  exact ⟨_, t, a, rfl, hrun, haccepted,
    rangeCheck_sound (l := .contiguous 3 0) (n := 2) rfl Circuit.registered_empty hrun
      (.refl a) hheld
      haccepted⟩

/-- **Soundness of decompositions**: where a table is accepted that asks for an instance, the
outputs are the binary digits of a number that the input is the residue of.  If the next number with
this residue has too many digits, it is the input. -/
theorem decomposition_sound {order : BitOrder} (hg : decomposition l n order = .ok g)
    (hreg : a.circuit.Registered) (hrun : Runs (g.build [v] start) a outs a') (hkept : a'.KeptIn b)
    (hheld : b.table.Held) (haccepted : b.circuit.violations b.table = .ok []) :
    ∃ x m, b.table.tryValue v = .ok x ∧ m < 2 ^ n ∧ m % k.order = x.val ∧
      outs.mapM b.table.tryValue = .ok (order.arrange ((binaryDigits n m).map Felt.ofBool)) ∧
      (2 ^ n ≤ x.val + k.order → m = x.val) := by
  obtain ⟨rows, hrows, rfl⟩ := bind_pure_eq_ok.mp hg
  obtain ⟨rfl, hchecked⟩ := BitRows.of_new hrows
  have hmade : (bits (.decomposition order) rows : Gadget k).Made := trivial
  obtain ⟨henforced, rfl⟩ := enforced_of_build hmade hreg (by rfl) hrun hkept hheld haccepted
  obtain ⟨m, hm, hdigits, hsum⟩ := henforced.exists_number hchecked
  refine ⟨m, m, henforced.tryValue_input nofun hsum, hm, rfl, ?_, fun hnext =>
    Felt.eq_val_of_lt rfl (hm.trans_le hnext)⟩
  rw [← hdigits, outputCells]
  exact order.mapM_arrange (henforced.mapM_bitVariables hchecked)

theorem decomposition_sound_three :
    ∃ g t outs a, decomposition (.contiguous 3 0) 2 .leastSignificantFirst = .ok g ∧
      Runs (g.build [⟨.publicInput, 0, 0, false⟩] 0) ⟨.empty, t⟩ outs a ∧
      a.circuit.violations (k := .goldilocks) a.table = .ok [] ∧
      ∃ x m, a.table.tryValue ⟨.publicInput, 0, 0, false⟩ = .ok x ∧ m < 2 ^ 2 ∧
        m % BaseField.goldilocks.order = x.val ∧
        outs.mapM a.table.tryValue =
          .ok (BitOrder.leastSignificantFirst.arrange ((binaryDigits 2 m).map Felt.ofBool)) ∧
        (2 ^ 2 ≤ x.val + BaseField.goldilocks.order → m = x.val) := by
  obtain ⟨t, a, hrun, hheld, haccepted, -⟩ := exists_accepted_number
    (.decomposition .leastSignificantFirst)
    ⟨"bit_decomposition", .contiguous 3 0, 2, true, by decide, by decide, by decide⟩ 0 3
    nofun Table.hasLayout_twoInputs (by decide) (by decide)
    (Table.holdsAbsolute_twoInputs 0 (by decide)) rfl (by decide) (Table.noneEnabled_of_width rfl)
    Table.held_twoInputs (by decide) (by decide)
  exact ⟨_, t, _, a, rfl, hrun, haccepted,
    decomposition_sound (l := .contiguous 3 0) (n := 2) rfl Circuit.registered_empty hrun (.refl a)
      hheld haccepted⟩

end Gadget

/-! ### Zero over BabyBear -/

/-- A table of zeros, with a public input. -/
def Table.zeros : Table .babyBear := .zero _ ⟨⟨3, 1, 0, 0⟩, 32, 32⟩

/-- **Zero has another decomposition** into 31 bits over BabyBear, whose order has 31 binary digits:
the digits of the order are accepted. -/
theorem Gadget.decomposition_zero :
    ∃ g t outs a, decomposition (.contiguous 3 0) 31 .mostSignificantFirst = .ok g ∧
      Runs (g.build [⟨.publicInput, 0, 0, false⟩] 0) ⟨.empty, t⟩ outs a ∧
      a.circuit.violations (k := .babyBear) a.table = .ok [] ∧
      a.table.tryValue ⟨.publicInput, 0, 0, false⟩ = .ok 0 ∧
      outs.mapM a.table.tryValue =
        .ok ((binaryDigits 31 BaseField.babyBear.order).map Felt.ofBool) ∧
      outs.mapM a.table.tryValue ≠ .ok ((binaryDigits 31 0).map Felt.ofBool) := by
  set b : BitRows := ⟨"bit_decomposition", .contiguous 3 0, 31,
    true, by decide, by decide, by decide⟩
  have hl : Table.zeros.HasLayout b.layout := Table.hasLayout_contiguous le_rfl (Nat.zero_le _)
  have hv : Table.zeros.HoldsAbsolute ⟨.publicInput, 0, 0, false⟩ := by decide
  have hheld : Table.zeros.Held := fun kind => by cases kind <;> decide
  have hzero : ((BaseField.babyBear.order : Nat) : Felt .babyBear) = 0 :=
    (Felt.ofNat_eq_zero_iff _).mpr dvd_rfl
  obtain ⟨t, a, hrun, hheld, haccepted, hinput, houts⟩ := exists_accepted_number
    (.decomposition .mostSignificantFirst) b 0 BaseField.babyBear.order nofun hl (by decide)
      (by decide)
    hv rfl (by decide) (Table.noneEnabled_of_width rfl) hheld (by decide)
    ((by decide : _ = (0 : Felt .babyBear)).trans hzero.symm)
  have hdigits : (binaryDigits 31 BaseField.babyBear.order).map (Felt.ofBool (k := .babyBear)) ≠
      (binaryDigits 31 0).map Felt.ofBool := by decide
  exact ⟨_, t, _, a, rfl, hrun, haccepted, hzero ▸ hinput, houts,
    fun hsame => hdigits (Except.ok.inj (houts.symm.trans hsame))⟩

end Plonkish
