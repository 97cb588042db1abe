import Plonkish.Proofs.Placing
import Plonkish.Proofs.Values

/-!
# Proofs — instances in order

What an instance of a gadget writes satisfies what it adds to the circuit:

* `Gadget.Filled.constraints_vanish`: in each row of the instance, the constraints of the gate that
  is enabled there vanish;
* `Gadget.Filled.forall₂_inputCells`: the cells that the inputs are copied to hold the inputs.

The constraints name columns that exist, and in the rows of the instance they read no other rows
(`Gadget.constraints_within`).
-/

namespace Plonkish

variable {k : BaseField}

theorem BitOrder.forall₂_arrange {α β : Type} (order : BitOrder) {R : α → β → Prop} {l : List α}
    {m : List β} (h : List.Forall₂ R l m) : List.Forall₂ R (order.arrange l) (order.arrange m) := by
  cases order with
  | mostSignificantFirst => exact h
  | leastSignificantFirst => exact List.forall₂_reverse_iff.mpr h

namespace Gadget

variable {g : Gadget k} {t : Table k} {values : List (Felt k)} {start : Nat}

/-! ### The constraints -/

theorem getElem?_constraintLists_bits {role : BitRole} {b : BitRows} {r : Nat} (hr : r < b.rows) :
    (bits role b : Gadget k).constraintLists[min r 1]? = some (b.constraints (r = 0)) := by
  rw [constraintLists]
  cases r with
  | zero =>
      rw [Nat.zero_min]
      split <;> rfl
  | succ r =>
      rw [if_pos (by omega : 1 < b.rows), Nat.min_eq_right (Nat.le_add_left 1 r)]
      rfl

/-- Each gate of the gadget is that of a row. -/
theorem exists_row {constraints : List (Expr k)} (h : constraints ∈ g.constraintLists) :
    ∃ r < g.rows, g.constraintLists[min r 1]? = some constraints := by
  obtain ⟨i, hi, rfl⟩ := List.getElem_of_mem h
  cases g with
  | row kind l =>
      obtain rfl := Nat.lt_one_iff.mp hi
      exact ⟨0, Nat.one_pos, rfl⟩
  | bits role b =>
      have hpos := b.rows_pos
      by_cases hmany : 1 < b.rows
      · have hi' : i < 2 := by rwa [constraintLists, if_pos hmany] at hi
        refine ⟨i, show i < b.rows by omega, ?_⟩
        rw [Nat.min_eq_left (Nat.le_of_lt_succ hi')]
        exact List.getElem?_eq_getElem hi
      · have hi' : i < 1 := by rwa [constraintLists, if_neg hmany] at hi
        obtain rfl := Nat.lt_one_iff.mp hi'
        exact ⟨0, hpos, List.getElem?_eq_getElem hi⟩

theorem takes_row {l : Layout} {cells : List (Felt k)} (hrow : start < t.rows)
    (h : t.ShowsRow l start cells) :
    Takes (fun i => (Variable.relativeTo .witness (l.witness.getD i 0) 0 : Expr k))
      (t.valueAt start) cells := by
  intro i x hx
  rw [l.value_witness i hrow]
  exact h i x hx

/-- **The constraints** of the gate of each row vanish there. -/
theorem Filled.constraints_vanish (h : g.Filled t values start) (hadm : g.Admits values)
    (hconstants : g.HoldsConstants t start) (hrows : start + g.rows ≤ t.rows) {r : Nat}
    (hr : r < g.rows) {constraints : List (Expr k)}
    (hgate : g.constraintLists[min r 1]? = some constraints) :
    ∀ e ∈ constraints, e.value (t.valueAt (start + r)) = 0 := by
  cases g with
  | row kind l =>
      obtain rfl := Nat.lt_one_iff.mp hr
      obtain rfl := Option.some.inj hgate
      obtain ⟨cells, hcells, hshows⟩ := h
      have hrow : start < t.rows := Nat.lt_of_succ_le hrows
      refine RowKind.constraints_vanish hadm hcells (takes_row hrow hshows) ?_
      rintro factor rfl
      rw [Expr.value_variable]
      exact (Table.valueAt_relativeTo_zero _ hrow).trans hconstants
  | bits role b =>
      obtain ⟨bits, hbits, -, hshows⟩ := h
      rw [getElem?_constraintLists_bits hr] at hgate
      obtain rfl := Option.some.inj hgate
      exact hshows.constraints_vanish hbits hrows hr

/-! ### The variables of the constraints -/

/-- The column of the variable exists, and read from a row of the instance, the variable names a row
of the instance. -/
structure Reads (g : Gadget k) (t : Table k) (start r : Nat) (v : Variable) : Prop where
  /-- The variable is relative, and its column exists. -/
  holds : t.HoldsRelative v
  /-- The variable names a row of the instance. -/
  row : ∃ s < g.rows, v.rowOf t.rows (start + r) = start + s

theorem reads_own {r : Nat} {kind : ColumnKind} {index : UInt32}
    (hcolumn : index.toNat < t.width kind) (hrows : start + g.rows ≤ t.rows) (hr : r < g.rows) :
    g.Reads t start r (.relativeTo kind index 0) :=
  ⟨⟨rfl, hcolumn⟩, r, hr, Variable.rowOf_relativeTo_zero kind index (by omega)⟩

theorem reads_above {r : Nat} {kind : ColumnKind} {index : UInt32}
    (hcolumn : index.toNat < t.width kind) (hrows : start + g.rows ≤ t.rows) (hr : r + 1 < g.rows) :
    g.Reads t start (r + 1) (.relativeTo kind index (-1)) := by
  have hrow : start + r < t.rows := by omega
  exact ⟨⟨rfl, hcolumn⟩, r, Nat.lt_of_succ_lt hr,
    Variable.rowOf_relativeTo_neg_one kind index hrow⟩

/-- **The variables** of the constraints name columns that exist and rows of the instance. -/
theorem constraints_within (hmade : g.Made) (hl : t.HasLayout g.layout)
    (hrows : start + g.rows ≤ t.rows) {r : Nat} (hr : r < g.rows) {constraints : List (Expr k)}
    (hgate : g.constraintLists[min r 1]? = some constraints) :
    ∀ e ∈ constraints, e.Within (g.Reads t start r) := by
  cases g with
  | row kind l =>
      obtain rfl := Nat.lt_one_iff.mp hr
      obtain rfl := Option.some.inj hgate
      refine RowKind.constraints_closed (Expr.closed_within _) ?_ ?_
      · intro i hi
        have hcolumn := hl.witness_lt _ (Layout.getD_mem (hi.trans_le hmade.1))
        exact Expr.within_variable (reads_own hcolumn hrows hr)
      · intro i hi
        have hcolumn := hl.constant_lt _ (Layout.getD_mem (hi.trans_le hmade.2))
        exact Expr.within_variable (reads_own hcolumn hrows hr)
  | bits role b =>
      rw [getElem?_constraintLists_bits hr] at hgate
      obtain rfl := Option.some.inj hgate
      refine BitRows.constraints_closed (Expr.closed_within _) ?_ ?_
      · intro i hi
        exact Expr.within_variable (reads_own (hl.witness_lt _ (Layout.getD_mem hi)) hrows hr)
      · -- The last sum of the row above is read in the rows after the first only.
        intro hnext
        obtain ⟨r, rfl⟩ := Nat.exists_eq_add_one_of_ne_zero (of_decide_eq_false hnext)
        have hcolumn := hl.witness_lt _ (Layout.getD_mem b.sumColumn_lt)
        exact Expr.within_variable (reads_above hcolumn hrows hr)

/-- The constraints are made by operators from constants and relative variables in witness and
constant columns. -/
theorem constraints_closed {Q : Expr k → Prop} (hQ : Expr.Closed Q)
    (hvariable : ∀ kind column rotation, kind ≠ .selector →
      Q (.term (Term.ofVariable (.relativeTo kind column rotation))))
    {constraints : List (Expr k)} (h : constraints ∈ g.constraintLists) :
    ∀ e ∈ constraints, Q e := by
  cases g with
  | row kind l =>
      obtain rfl := List.mem_singleton.mp h
      refine RowKind.constraints_closed hQ ?_ ?_
      · exact fun i _ => hvariable .witness _ 0 nofun
      · exact fun i _ => hvariable .constant _ 0 nofun
  | bits role b =>
      obtain ⟨r, hr, hgate⟩ := exists_row h
      rw [getElem?_constraintLists_bits hr] at hgate
      obtain rfl := Option.some.inj hgate
      refine BitRows.constraints_closed hQ ?_ ?_
      · exact fun i _ => hvariable .witness _ 0 nofun
      · exact fun _ => hvariable .witness _ (-1) nofun

/-- The constraints do not read selectors. -/
theorem constraints_kind {constraints : List (Expr k)} (h : constraints ∈ g.constraintLists) :
    ∀ e ∈ constraints, e.Within fun v => v.kind ≠ .selector :=
  constraints_closed (Expr.closed_within _) (fun _ _ _ hne => Expr.within_variable hne) h

/-- The coefficients of the constraints are proper words. -/
theorem constraints_proper {constraints : List (Expr k)} (h : constraints ∈ g.constraintLists) :
    ∀ e ∈ constraints, e.Proper :=
  constraints_closed Expr.closed_proper (fun _ _ _ _ => Expr.proper_variable _) h

/-- Adding the gates of a gadget keeps the coefficients proper words. -/
theorem proper_addGates {c : Circuit k} (hreg : c.Registered)
    (h : ∀ gate ∈ c.gates, ∀ e ∈ gate.constraints, e.Proper) :
    ∀ gate ∈ (c.addGates g.constraintLists).2.gates, ∀ e ∈ gate.constraints, e.Proper := by
  obtain ⟨-, hgrows, -⟩ := hreg.addGates g.constraintLists
  intro gate hgate
  rcases hgrows.from_new hgate with hold | hnew
  · exact h gate hold
  · exact constraints_proper hnew

/-- A gate that a selector of the gadget leads to is the one for the row. -/
theorem constraints_of_selector {c : Circuit k} (hreg : c.Registered) {gate : Gate k}
    (hgate : gate ∈ (c.addGates g.constraintLists).2.gates) {i : Nat}
    (hs : (c.addGates g.constraintLists).1[i]? = some gate.selector) :
    ∃ constraints, g.constraintLists[i]? = some constraints ∧ gate.constraints == constraints := by
  obtain ⟨hreg', -, hleads⟩ := hreg.addGates g.constraintLists
  obtain ⟨constraints, hconstraints, gate', hgate', hsame⟩ := Circuit.exists_leads hleads hs
  obtain rfl := hreg'.eq_of_selector_eq hgate (Array.mem_of_getElem? hgate')
    (hreg'.selector_eq hgate').symm
  exact ⟨constraints, hconstraints, hsame⟩

/-! ### The cells of the inputs -/

theorem valueAt_cellVariable {l : Layout} {i r rows : Nat} (hr : r < rows)
    (hrows : start + rows ≤ 2 ^ 31) :
    t.valueAt 0 (l.cellVariable i (start + r)) = t.cellAt (l.cell i (start + r)) := by
  rw [Table.valueAt, Layout.cellOf_cellVariable l i (by omega)]

/-- A row that starts with the inputs shows them in the cells that they are copied to. -/
theorem forall₂_row {kind : RowKind k} {l : Layout} {cells : List (Felt k)}
    (hshows : t.ShowsRow l start cells) (hbegins : values <+: cells)
    (harity : values.length = kind.arity) (hrows : start + 1 ≤ 2 ^ 31) :
    List.Forall₂ (fun x v => t.valueAt 0 v = x) values ((row kind l).inputCells start) := by
  refine List.forall₂_iff_get.mpr ⟨?_, ?_⟩
  · rw [inputCells, List.length_map, List.length_range', harity]
  intro i hi hi'
  have hcell : cells[i]? = some (values.get ⟨i, hi⟩) := List.prefix_iff_getElem?.mp hbegins i hi
  simp only [inputCells, List.get_eq_getElem, List.getElem_map, List.getElem_range', Nat.one_mul,
    Nat.zero_add]
  exact (valueAt_cellVariable Nat.one_pos hrows).trans (hshows i _ hcell)

theorem forall₂_bitVariables {b : BitRows} {bits : List Bool} (h : b.Shows t start bits)
    (hbits : bits.length = b.bits) (hrows : start + b.rows ≤ 2 ^ 31) :
    List.Forall₂ (fun x v => t.valueAt 0 v = x) (bits.map Felt.ofBool) (b.bitVariables start) := by
  refine List.forall₂_iff_get.mpr ⟨?_, ?_⟩
  · rw [List.length_map, BitRows.bitVariables, List.length_map, List.length_range', hbits]
  · intro i hi hi'
    rw [List.length_map] at hi
    have hslot : b.padding + i ∈ List.range' b.padding b.bits :=
      List.mem_range'_1.mpr ⟨Nat.le_add_right _ _, by omega⟩
    simp only [BitRows.bitVariables, List.get_eq_getElem, List.getElem_map, List.getElem_range',
      Nat.one_mul]
    rw [valueAt_cellVariable (BitRows.slot_lt hslot).2 hrows]
    exact h.cellAt_bit hbits (List.getElem?_eq_getElem hi)

/-- **The cells that the inputs are copied to** hold the inputs. -/
theorem Filled.forall₂_inputCells (h : g.Filled t values start) (hadm : g.Admits values)
    (hrows : start + g.rows ≤ 2 ^ 31) :
    List.Forall₂ (fun x v => t.valueAt 0 v = x) values (g.inputCells start) := by
  cases g with
  | row kind l =>
      obtain ⟨cells, hcells, hshows⟩ := h
      obtain ⟨cells', hcells', -, hbegins⟩ := RowKind.exists_cells hadm
      obtain rfl := Except.ok.inj (hcells.symm.trans hcells')
      exact forall₂_row hshows hbegins (RowKind.Admits.length_eq hadm) hrows
  | bits role b =>
      obtain ⟨bits, hbits, hcarries, hshows⟩ := h
      cases role with
      | composition order =>
          have hvalues : values = order.arrange (bits.map Felt.ofBool) :=
            hcarries.trans (order.map_arrange _ _)
          rw [hvalues]
          exact order.forall₂_arrange (forall₂_bitVariables hshows hbits hrows)
      | decomposition _ | rangeCheck =>
          -- The number is copied to the last sum, which is in the last row.
          have hpos := b.rows_pos
          have hlast : b.rows - 1 < b.rows := Nat.sub_lt hpos Nat.one_pos
          have hsum := valueAt_cellVariable (t := t) (l := b.layout) (i := b.sumColumn) hlast
            hrows
          rw [← Nat.add_sub_assoc hpos, hshows.cellAt_sum hbits] at hsum
          rw [show values = [sumAfter 0 bits] from hcarries]
          exact .cons hsum .nil

end Gadget

end Plonkish
