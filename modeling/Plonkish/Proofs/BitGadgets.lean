import Mathlib.Tactic.LinearCombination
import Plonkish.Proofs.Digits
import Plonkish.Proofs.RowGadgets
import Plonkish.Proofs.Steps

/-!
# Proofs — bits and running sums

The sum after some digits, `digitSum`, and after some bits, `sumAfter`, doubles and adds, one after
the other.  Bit rows write, row by row, the sum so far, the bits of the row and the sum after them
(`BitRows.rowCells`); once they are written, a table shows them (`BitRows.Shows`,
`BitRows.runs_assign`).

* `BitRows.Shows.constraints_vanish`: the constraints of each row hold of what it shows.  The sum of
  a row is computed with the powers of two beforehand instead (`BitRows.value_rowSum`), the padding
  is zero, and the first sum of a row is the last one of the row above.
* `BitRows.Shows.cellAt_bit` and `BitRows.Shows.cellAt_sum`: the cells that are said to hold the
  bits and the number do so.
* `sumAfter_eq`: the sum after some bits is the number that they spell, reduced.
* `sumAfter_val`: the sum after the binary digits of an element is the element.
-/

namespace Plonkish

variable {k : BaseField}

open Build (Runs)

/-! ### Sums of digits -/

/-- The sum after some digits, from a given one on: double and add. -/
def digitSum (s : Felt k) (digits : List (Felt k)) : Felt k :=
  digits.foldl (fun sum digit => sum + sum + digit) s

theorem digitSum_append (s : Felt k) (digits digits' : List (Felt k)) :
    digitSum s (digits ++ digits') = digitSum (digitSum s digits) digits' :=
  List.foldl_append

theorem digitSum_zeros (n : Nat) : digitSum (0 : Felt k) (List.replicate n 0) = 0 := by
  induction n with
  | zero => rfl
  | succ n ih =>
      rw [List.replicate_succ, digitSum, List.foldl_cons, add_zero, add_zero]
      exact ih

/-- The sum after some bits, from a given one on. -/
def sumAfter (s : Felt k) (bits : List Bool) : Felt k := bits.foldl BitRows.nextSum s

/-- The sum of bits as field elements is the sum the rows are filled with. -/
theorem digitSum_ofBool (s : Felt k) (bits : List Bool) :
    digitSum s (bits.map Felt.ofBool) = sumAfter s bits :=
  List.foldl_map

theorem sumAfter_append (s : Felt k) (bits bits' : List Bool) :
    sumAfter s (bits ++ bits') = sumAfter (sumAfter s bits) bits' :=
  List.foldl_append

theorem sumAfter_zeros (n : Nat) : sumAfter (0 : Felt k) (List.replicate n false) = 0 := by
  rw [← digitSum_ofBool, List.map_replicate]
  exact digitSum_zeros n

theorem ofBool_eq_cast (b : Bool) : (Felt.ofBool b : Felt k) = (b.toNat : Felt k) := by
  cases b with
  | false => exact Nat.cast_zero.symm
  | true => exact Nat.cast_one.symm

/-- **The sum after some bits** is the number that they spell. -/
theorem sumAfter_eq (bits : List Bool) : sumAfter (0 : Felt k) bits = binaryNumber bits := by
  induction bits using List.reverseRecOn with
  | nil => exact Nat.cast_zero.symm
  | append_singleton bits bit ih =>
      rw [sumAfter_append, ih, binaryNumber_concat]
      show (_ + _ + Felt.ofBool bit : Felt k) = _
      rw [ofBool_eq_cast]
      push_cast
      ring

/-- The binary digits of a number in range sum up to it. -/
theorem sumAfter_binaryDigits {n x : Nat} (h : x < 2 ^ n) :
    sumAfter (0 : Felt k) (binaryDigits n x) = x := by
  rw [sumAfter_eq, binaryNumber_binaryDigits, Nat.mod_eq_of_lt h]

/-- **The sum after the binary digits** of an element is the element. -/
theorem sumAfter_val {a : Felt k} {n : Nat} (h : a.val < 2 ^ n) :
    sumAfter 0 (binaryDigits n a.val) = a :=
  (sumAfter_binaryDigits h).trans a.ofNat_val

namespace BitRows

variable (b : BitRows)

/-! ### Rows of bits -/

theorem perRow_pos : 0 < b.perRow := Nat.sub_pos_of_lt b.three_le

theorem width_eq : b.layout.witness.length = b.perRow + 2 :=
  (Nat.sub_add_cancel (Nat.le_of_succ_le b.three_le)).symm

theorem sumColumn_lt : b.sumColumn < b.layout.witness.length := by
  rw [sumColumn, width_eq]
  exact Nat.lt_succ_self _

/-- The rows have a slot for every bit. -/
theorem bits_le_slots : b.bits ≤ b.rows * b.perRow := by
  have hlt := Nat.lt_div_mul_add (a := b.bits + b.perRow - 1) b.perRow_pos
  rw [rows]
  omega

/-- The slots are taken up by the padding and the bits. -/
theorem padding_add_bits : b.padding + b.bits = b.rows * b.perRow :=
  Nat.sub_add_cancel b.bits_le_slots

/-- The padding fits the first row. -/
theorem padding_lt : b.padding < b.perRow := by
  have hle := Nat.div_mul_le_self (b.bits + b.perRow - 1) b.perRow
  have hpos := b.perRow_pos
  have hbits := b.bits_pos
  rw [padding, rows]
  omega

theorem rows_pos : 0 < b.rows := by
  rw [rows]
  exact Nat.div_pos (by have := b.bits_pos; omega) b.perRow_pos

/-- All slots of the rows: the padding and the bits. -/
def padded (bits : List Bool) : List Bool := List.replicate b.padding false ++ bits

variable {b} {bits : List Bool}

theorem length_padded (h : bits.length = b.bits) : (b.padded bits).length = b.rows * b.perRow := by
  rw [padded, List.length_append, List.length_replicate, h, padding_add_bits]

theorem length_slots (h : bits.length = b.bits) {r : Nat} (hr : r < b.rows) :
    (b.slots bits r).length = b.perRow := by
  have hle : (r + 1) * b.perRow ≤ b.rows * b.perRow := Nat.mul_le_mul_right _ hr
  have hlen := length_padded h
  rw [Nat.succ_mul] at hle
  show (((b.padded bits).drop (r * b.perRow)).take b.perRow).length = _
  rw [List.length_take, List.length_drop, hlen]
  omega

/-- A bit of a row among all slots. -/
theorem getElem?_slots {r j : Nat} (hj : j < b.perRow) :
    (b.slots bits r)[j]? = (b.padded bits)[r * b.perRow + j]? := by
  show (((b.padded bits).drop (r * b.perRow)).take b.perRow)[j]? = _
  rw [List.getElem?_take_of_lt hj, List.getElem?_drop]

/-- The slots before the first bit. -/
theorem getElem?_slots_padding {j : Nat} (hj : j < b.padding) :
    (b.slots bits 0)[j]? = some false := by
  rw [getElem?_slots (hj.trans b.padding_lt), Nat.zero_mul, Nat.zero_add, padded,
    List.getElem?_append_left (by rwa [List.length_replicate]), List.getElem?_replicate, if_pos hj]

/-- The sum before a row. -/
def sumBefore (k : BaseField) (b : BitRows) (bits : List Bool) (r : Nat) : Felt k :=
  sumAfter 0 ((b.padded bits).take (r * b.perRow))

theorem sumBefore_zero : sumBefore k b bits 0 = 0 := by
  rw [sumBefore, Nat.zero_mul]
  rfl

/-- The running sum goes on by the bits of the row. -/
theorem sumBefore_succ (r : Nat) :
    sumBefore k b bits (r + 1) = sumAfter (sumBefore k b bits r) (b.slots bits r) := by
  rw [sumBefore, Nat.succ_mul, List.take_add, sumAfter_append]
  rfl

/-- The last row ends with the sum of all bits. -/
theorem sumBefore_rows (h : bits.length = b.bits) :
    sumBefore k b bits b.rows = sumAfter 0 bits := by
  rw [sumBefore, ← length_padded h, List.take_length, padded, sumAfter_append, sumAfter_zeros]

/-- The cells of a row: the sum before it, its bits and the sum after them. -/
def rowCells (s : Felt k) (bits : List Bool) : List (Felt k) :=
  s :: (bits.map Felt.ofBool ++ [sumAfter s bits])

theorem length_rowCells (s : Felt k) (bits : List Bool) :
    (rowCells s bits).length = bits.length + 2 := by
  rw [rowCells, List.length_cons, List.length_append, List.length_map]
  rfl

theorem getElem?_rowCells_bit {s : Felt k} {j : Nat} {bit : Bool} (h : bits[j]? = some bit) :
    (rowCells s bits)[j + 1]? = some (Felt.ofBool bit) := by
  have hlt : j < bits.length := (List.getElem?_eq_some_iff.mp h).1
  rw [rowCells, List.getElem?_cons_succ, List.getElem?_append_left (by rwa [List.length_map]),
    List.getElem?_map, h]
  rfl

theorem getElem?_rowCells_last (s : Felt k) (bits : List Bool) :
    (rowCells s bits)[bits.length + 1]? = some (sumAfter s bits) := by
  rw [rowCells, List.getElem?_cons_succ, List.getElem?_append_right (by rw [List.length_map]),
    List.length_map, Nat.sub_self]
  rfl

/-! ### The constraints of a row -/

section Constraints

variable {valuation : Variable → Felt k} {s : Felt k}

/-- **The sum of a row** with powers of two is the sum digit by digit. -/
theorem value_rowSum {digits : List (Felt k)} (hlen : digits.length = b.perRow)
    (hw : Takes (fun i => b.column i 0) valuation (s :: digits)) :
    (b.rowSum : Expr k).value valuation = digitSum s digits := by
  have hpower : ∀ i, (Expr.constant ((Felt.ofNat 2 : Felt k) ^ i)).value valuation = 2 ^ i := by
    intro i
    rw [Expr.value_constant]
    rfl
  -- After `n` digits, what is missing is the powers of two for the others.
  have hfold : ∀ n ≤ b.perRow,
      ((List.range' 1 n).foldl (fun acc j => acc +
          .constant ((Felt.ofNat 2 : Felt k) ^ (b.perRow - j)) * b.column j 0)
        (b.column 0 0 * .constant ((Felt.ofNat 2 : Felt k) ^ b.perRow))).value valuation =
      2 ^ (b.perRow - n) * digitSum s (digits.take n) := by
    intro n hn
    induction n with
    | zero =>
        have hsum : (b.column 0 0 : Expr k).value valuation = s := hw 0 s rfl
        rw [List.range'_zero, List.foldl_nil, Expr.value_mul, hpower, hsum, mul_comm]
        rfl
    | succ n ih =>
        have hlt : n < digits.length := hlen ▸ hn
        have hdigit : (b.column (1 + n) 0 : Expr k).value valuation = digits[n] := by
          rw [Nat.add_comm]
          exact hw (n + 1) _ (List.getElem?_eq_getElem hlt)
        have hsplit : b.perRow - n = b.perRow - (1 + n) + 1 := by omega
        rw [List.range'_concat, List.foldl_append, List.foldl_cons, List.foldl_nil, Expr.value_add,
          Expr.value_mul, hpower, Nat.one_mul, hdigit, ih (Nat.le_of_succ_le hn),
          List.take_add_one, List.getElem?_eq_getElem hlt, digitSum_append, hsplit,
          Nat.add_comm n 1]
        show _ = _ * (_ + _ + digits[n])
        ring
  have hrow := hfold b.perRow le_rfl
  rw [Nat.sub_self, pow_zero, one_mul, List.take_of_length_le hlen.le] at hrow
  exact hrow

/-- All constraints are the one for the sum, those for the first cells and those for each bit. -/
theorem forall_constraints {Q : Expr k → Prop} {first : Bool} :
    (∀ e ∈ b.constraints first, Q e) ↔ Q (b.rowSum - b.column b.sumColumn 0) ∧
      (first = true → Q (b.column 0 0) ∧ ∀ j < b.padding, Q (b.column (j + 1) 0)) ∧
      (first = false → Q (b.column 0 0 - b.column b.sumColumn (-1))) ∧
      (b.checked = true →
        ∀ j < b.perRow, Q (b.column (j + 1) 0 * (.constant 1 - b.column (j + 1) 0))) := by
  have hrange : ∀ (n : Nat) (f : Nat → Expr k),
      (∀ e ∈ (List.range' 1 n).map f, Q e) ↔ ∀ j < n, Q (f (j + 1)) := by
    intro n f
    rw [List.range'_eq_map_range, List.map_map, List.forall_mem_map]
    simp only [List.mem_range, Function.comp_apply, Nat.add_comm 1]
  have hbits : (∀ e ∈ (if b.checked then (List.range' 1 b.perRow).map fun j =>
        b.column j 0 * (.constant 1 - b.column j 0) else []), Q e) ↔
      (b.checked = true →
        ∀ j < b.perRow, Q (b.column (j + 1) 0 * (.constant 1 - b.column (j + 1) 0))) := by
    split
    · next hchecked => rw [hrange, forall_prop_of_true hchecked]
    · next hunchecked => exact iff_of_true nofun fun hchecked => absurd hchecked hunchecked
  rw [constraints, List.cons_append, List.forall_mem_cons, List.forall_mem_append, hbits]
  cases first with
  | true => simp only [if_true, List.forall_mem_cons, hrange, true_imp_iff, reduceCtorEq,
      false_imp_iff, true_and]
  | false => simp only [Bool.false_eq_true, if_false, List.forall_mem_singleton, false_imp_iff,
      true_imp_iff, true_and]

/-- The constraints of a row, where it starts from zero or from the sum of the row above. -/
theorem constraints_vanish_of_takes {first : Bool} (hlen : bits.length = b.perRow)
    (hw : Takes (fun i => b.column i 0) valuation (rowCells s bits))
    (hfirst : first = true → s = 0 ∧ ∀ j < b.padding, bits[j]? = some false)
    (hnext : first = false → (b.column b.sumColumn (-1) : Expr k).value valuation = s) :
    ∀ e ∈ (b.constraints first : List (Expr k)), e.value valuation = 0 := by
  have hsum : (b.column 0 0 : Expr k).value valuation = s := hw 0 s rfl
  have hlast : (b.column b.sumColumn 0 : Expr k).value valuation = sumAfter s bits := by
    rw [sumColumn, ← hlen]
    exact hw _ _ (getElem?_rowCells_last s bits)
  have hdigits : Takes (fun i => b.column i 0) valuation (s :: bits.map Felt.ofBool) :=
    hw.of_prefix ⟨[sumAfter s bits], rfl⟩
  refine forall_constraints.mpr ⟨?_, ?_, ?_, fun _ => ?_⟩
  · rw [Expr.value_sub, value_rowSum (by rwa [List.length_map]) hdigits, digitSum_ofBool, hlast,
      sub_self]
  · intro htrue
    obtain ⟨hzero, hpadding⟩ := hfirst htrue
    exact ⟨hsum.trans hzero, fun j hj => hw _ _ (getElem?_rowCells_bit (hpadding j hj))⟩
  · intro hfalse
    rw [Expr.value_sub, hsum, hnext hfalse, sub_self]
  · intro j hj
    have hlt : j < bits.length := hlen ▸ hj
    have hbit : (b.column (j + 1) 0 : Expr k).value valuation = Felt.ofBool bits[j] :=
      hw _ _ (getElem?_rowCells_bit (List.getElem?_eq_getElem hlt))
    rw [Expr.value_mul, Expr.value_sub, Expr.value_constant, hbit]
    cases bits[j] with
    | false => exact zero_mul _
    | true => exact (congrArg _ (sub_self _)).trans (mul_zero _)

end Constraints

section Closed

variable {Q : Expr k → Prop}

/-- The sum of a row is built from the row's columns and constants. -/
theorem rowSum_closed (hQ : Expr.Closed Q) (hw : ∀ i < b.layout.witness.length, Q (b.column i 0)) :
    Q b.rowSum := by
  have hwidth := b.width_eq
  refine List.foldlRecOn _ _ ?_ ?_
  · exact hQ.mul (hw 0 (by omega)) (hQ.constant _)
  · intro acc hacc j hj
    obtain ⟨i, hi, rfl⟩ := List.mem_range'.mp hj
    exact hQ.add hacc (hQ.mul (hQ.constant _) (hw _ (by omega)))

/-- The constraints are made by operators from constants and the columns of the layout in their own
row, and the last one also in the row above if it is not the first row. -/
theorem constraints_closed (hQ : Expr.Closed Q) {first : Bool}
    (hw : ∀ i < b.layout.witness.length, Q (b.column i 0))
    (hnext : first = false → Q (b.column b.sumColumn (-1))) : ∀ e ∈ b.constraints first, Q e := by
  have hwidth := b.width_eq
  have hpadding := b.padding_lt
  have hzero := hw 0 (by omega)
  refine forall_constraints.mpr ⟨?_, ?_, ?_, fun _ => ?_⟩
  · exact hQ.sub (rowSum_closed hQ hw) (hw _ b.sumColumn_lt)
  · intro _
    exact ⟨hzero, fun j hj => hw _ (by omega)⟩
  · intro hfalse
    exact hQ.sub hzero (hnext hfalse)
  · intro j hj
    have hbit := hw (j + 1) (by omega)
    exact hQ.mul hbit (hQ.sub (hQ.constant 1) hbit)

end Closed

/-- A table shows the rows for some bits, from a row on. -/
def Shows (b : BitRows) (t : Table k) (start : Nat) (bits : List Bool) : Prop :=
  ∀ r < b.rows, t.ShowsRow b.layout (start + r) (rowCells (sumBefore k b bits r) (b.slots bits r))

section Tables

variable {t : Table k} {start r : Nat}

/-- The rows go on showing their bits as long as no witness cell changes. -/
theorem Shows.mono {t' : Table k} (h : b.Shows t start bits)
    (hframe : ∀ c, c.kind = .witness → t'.cellAt c = t.cellAt c) : b.Shows t' start bits :=
  fun r hr i x hx => (hframe _ rfl).trans (h r hr i x hx)

theorem value_column {row : Nat} (hrow : row < t.rows) (i : Nat) :
    (b.column i 0 : Expr k).value (t.valueAt row) = t.cellAt (b.layout.cell i row) :=
  b.layout.value_witness i hrow

/-- The column of the row above is the cell of the row before. -/
theorem value_column_above {row : Nat} (hrow : row < t.rows) (i : Nat) :
    (b.column i (-1) : Expr k).value (t.valueAt (row + 1)) = t.cellAt (b.layout.cell i row) := by
  rw [column, Expr.value_variable]
  exact Table.valueAt_relativeTo_neg_one _ hrow

/-- The last cell of a row is the sum after it. -/
theorem Shows.cellAt_last (h : b.Shows t start bits) (hbits : bits.length = b.bits)
    (hr : r < b.rows) :
    t.cellAt (b.layout.cell b.sumColumn (start + r)) = sumBefore k b bits (r + 1) := by
  have hlast := getElem?_rowCells_last (sumBefore k b bits r) (b.slots bits r)
  rw [length_slots hbits hr] at hlast
  rw [sumBefore_succ]
  exact h r hr _ _ hlast

/-- **The constraints of each row** hold of what it shows. -/
theorem Shows.constraints_vanish (h : b.Shows t start bits) (hbits : bits.length = b.bits)
    (hrows : start + b.rows ≤ t.rows) (hr : r < b.rows) :
    ∀ e ∈ (b.constraints (r = 0) : List (Expr k)), e.value (t.valueAt (start + r)) = 0 := by
  have hrow : start + r < t.rows := by omega
  have htakes : Takes (fun i => b.column i 0) (t.valueAt (start + r))
      (rowCells (sumBefore k b bits r) (b.slots bits r)) := by
    intro i a ha
    rw [value_column hrow]
    exact h r hr i a ha
  refine constraints_vanish_of_takes (length_slots hbits hr) htakes ?_ ?_
  · intro hfirst
    obtain rfl := of_decide_eq_true hfirst
    exact ⟨sumBefore_zero, fun j hj => getElem?_slots_padding hj⟩
  · intro hnext
    obtain ⟨r, rfl⟩ := Nat.exists_eq_add_one_of_ne_zero (of_decide_eq_false hnext)
    rw [← Nat.add_assoc, value_column_above (by omega)]
    exact h.cellAt_last hbits (by omega)

/-! ### The cells of the bits and of the number -/

/-- **The cell of a bit** holds it. -/
theorem Shows.cellAt_bit (h : b.Shows t start bits) (hbits : bits.length = b.bits) {i : Nat}
    {bit : Bool} (hi : bits[i]? = some bit) :
    t.cellAt (b.layout.cell ((b.padding + i) % b.perRow + 1) (start + (b.padding + i) / b.perRow)) =
      Felt.ofBool bit := by
  have hlt : i < b.bits := hbits ▸ (List.getElem?_eq_some_iff.mp hi).1
  have hslots := b.padding_add_bits
  have hr : (b.padding + i) / b.perRow < b.rows := by
    rw [Nat.div_lt_iff_lt_mul b.perRow_pos]
    omega
  refine h _ hr _ _ (getElem?_rowCells_bit ?_)
  rw [getElem?_slots (Nat.mod_lt _ b.perRow_pos), Nat.div_add_mod', padded,
    List.getElem?_append_right (by rw [List.length_replicate]; exact Nat.le_add_right _ _),
    List.length_replicate, Nat.add_sub_cancel_left, hi]

/-- **The cell of the number** holds the sum of all bits. -/
theorem Shows.cellAt_sum (h : b.Shows t start bits) (hbits : bits.length = b.bits) :
    t.cellAt (b.layout.cell b.sumColumn (start + b.rows - 1)) = sumAfter 0 bits := by
  have hpos := b.rows_pos
  have hlast := h.cellAt_last hbits (Nat.sub_lt hpos Nat.one_pos)
  rwa [Nat.sub_add_cancel hpos, sumBefore_rows hbits, ← Nat.add_sub_assoc hpos] at hlast

end Tables

/-! ### Writing the rows -/

section Writing

variable {a : Assembly k}

theorem assignBits_eq (row j : Nat) (s : Felt k) (bits : List Bool) :
    b.assignBits row j s bits =
      Build.writeRow b.layout row j (bits.map Felt.ofBool) >>= fun _ => pure (sumAfter s bits) := by
  induction bits generalizing j s with
  | nil => rfl
  | cons bit bits ih =>
      rw [assignBits, List.map_cons, Build.writeRow, bind_assoc]
      exact congrArg _ (funext fun _ => ih _ _)

/-- A row is written as a whole. -/
theorem assignRow_eq (row : Nat) (s : Felt k) (hlen : bits.length = b.perRow) :
    b.assignRow row s bits =
      Build.writeRow b.layout row 0 (rowCells s bits) >>= fun _ => pure (sumAfter s bits) := by
  have hlast : b.sumColumn = 1 + (bits.map (Felt.ofBool (k := k))).length := by
    rw [List.length_map, hlen, sumColumn, Nat.add_comm]
  rw [assignRow, assignBits_eq, rowCells, Build.writeRow, Build.writeRow_append, hlast]
  simp only [bind_assoc, pure_bind, Build.writeRow, Nat.zero_add]

/-- **Writing the first rows** for some bits. -/
theorem runs_foldlM_assignRow {start : Nat} (hl : a.table.HasLayout b.layout)
    (hrows : start + b.rows ≤ a.table.rows) (hsmall : start + b.rows ≤ 2 ^ 64)
    (hbits : bits.length = b.bits) {n : Nat} (hn : n ≤ b.rows) :
    ∃ t, Runs ((List.range n).foldlM (fun s r => do
        b.assignRow (← Build.ofFault (Count.add start r)) s (b.slots bits r)) 0) a
        (sumBefore k b bits n) ⟨a.circuit, t⟩ ∧
      a.table.Changes t (b.layout.block start n b.layout.witness.length) ∧
      ∀ r < n,
        t.ShowsRow b.layout (start + r) (rowCells (sumBefore k b bits r) (b.slots bits r)) := by
  induction n with
  | zero =>
      refine ⟨a.table, ?_, (Table.Changes.refl _).mono (Set.empty_subset _), nofun⟩
      rw [sumBefore_zero]
      exact Runs.pure 0 a
  | succ n ih =>
      obtain ⟨t, hrun, hchange, hshows⟩ := ih (Nat.le_of_succ_le hn)
      have hlen := length_slots hbits hn
      have hadd : Count.add start n = .ok (start + n) := Count.check_of_lt (by omega)
      have hwidth : (rowCells (sumBefore k b bits n) (b.slots bits n)).length ≤
          b.layout.witness.length := by rw [length_rowCells, hlen, width_eq]
      have hrow : start + n < t.rows := hchange.rows_eq ▸ by omega
      obtain ⟨t', hwrite, hchange', hshow⟩ :=
        Build.runs_writeRow (a := ⟨a.circuit, t⟩) (hchange.hasLayout hl) hrow hwidth
      refine ⟨t', ?_, (hchange.trans hchange').mono ?_, ?_⟩
      · rw [List.range_succ, List.foldlM_append, sumBefore_succ]
        refine hrun.bind ?_
        rw [List.foldlM_cons]
        refine ((Build.runs_ofFault hadd).bind ?_).bind (Runs.pure _ _)
        rw [assignRow_eq _ _ hlen]
        exact hwrite.bind (Runs.pure _ _)
      · rintro c (⟨r, hr, i, hi, rfl⟩ | ⟨i, hi, rfl⟩)
        · exact ⟨r, Nat.lt_succ_of_lt hr, i, hi, rfl⟩
        · rw [length_rowCells, hlen, ← width_eq] at hi
          exact ⟨n, Nat.lt_succ_self n, i, hi, by rw [Nat.zero_add]⟩
      · intro r hr
        rcases Nat.lt_succ_iff_lt_or_eq.mp hr with hlt | rfl
        · -- The rows above are not those that the last step writes to.
          intro i x hx
          refine (hchange'.frame _ ?_).trans (hshows r hlt i x hx)
          rintro ⟨j, -, hcell⟩
          have hsame : start + r = start + n := congrArg Cell.row hcell
          omega
        · exact hshow

/-- **Writing all rows** for some bits. -/
theorem runs_assign {start : Nat} (hl : a.table.HasLayout b.layout)
    (hrows : start + b.rows ≤ a.table.rows) (hsmall : start + b.rows ≤ 2 ^ 64)
    (hbits : bits.length = b.bits) :
    ∃ t, Runs (b.assign bits start) a (sumAfter 0 bits) ⟨a.circuit, t⟩ ∧
      a.table.Changes t (b.layout.block start b.rows b.layout.witness.length) ∧
      b.Shows t start bits := by
  rw [← sumBefore_rows hbits]
  exact runs_foldlM_assignRow hl hrows hsmall hbits le_rfl

end Writing

end BitRows

end Plonkish
