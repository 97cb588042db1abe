import Plonkish.Gadget.Basic
import Plonkish.Proofs.BitGadgets

/-!
# Proofs — placing a gadget

Placing an instance of a gadget answers where the columns of its layout and its rows exist, its
inputs are absolute cells that exist and hold what the gadget admits, and there is memory for its
selectors (`Gadget.runs_synthesize`).  It registers the gates of the gadget
(`Gadget.constraintLists`) and copies its inputs to cells of its own (`Gadget.copyPairs`).  It
changes no cells but those that `Gadget.written` lists, and these then show what the gadget
computes: `Gadget.Filled` for the witness, `Gadget.HoldsConstants` for the constants.
-/

namespace Plonkish

variable {k : BaseField}

open Build (Runs)

/-! ### What a gadget needs and writes -/

/-- Whether an element is one. -/
def Felt.toBool (a : Felt k) : Bool := a = 1

/-- A bit is its own truth value. -/
theorem Felt.ofBool_toBool {a : Felt k} (h : a.IsBit) : Felt.ofBool a.toBool = a := by
  rcases h with rfl | rfl
  · have hne : (0 : Felt k) ≠ 1 := zero_ne_one
    rw [ofBool, toBool, if_neg (by rwa [decide_eq_true_iff])]
  · rw [ofBool, toBool, if_pos (decide_eq_true rfl)]

/-- A bit is taken as an input, checked or not. -/
theorem BitRows.ofInput_eq (b : BitRows) {a : Felt k} (h : a.IsBit) :
    b.ofInput a = .ok a.toBool := by
  rcases h with rfl | rfl
  · have hne : (0 : Felt k) ≠ 1 := zero_ne_one
    rw [ofInput, if_pos rfl, Felt.toBool, decide_eq_false hne]
  · rw [ofInput, if_neg one_ne_zero, if_pos rfl, Felt.toBool, decide_eq_true rfl]

/-- Either order of the bits is its own inverse. -/
theorem BitOrder.arrange_arrange {α : Type} (order : BitOrder) (l : List α) :
    order.arrange (order.arrange l) = l := by
  cases order with
  | mostSignificantFirst => rfl
  | leastSignificantFirst => exact List.reverse_reverse l

theorem BitOrder.length_arrange {α : Type} (order : BitOrder) (l : List α) :
    (order.arrange l).length = l.length := by
  cases order with
  | mostSignificantFirst => rfl
  | leastSignificantFirst => exact List.length_reverse

theorem BitOrder.map_arrange {α β : Type} (order : BitOrder) (f : α → β) (l : List α) :
    (order.arrange l).map f = order.arrange (l.map f) := by
  cases order with
  | mostSignificantFirst => rfl
  | leastSignificantFirst => exact List.map_reverse

/-- What the inputs of bit rows have to do with the bits. -/
def BitRole.Carries (role : BitRole) (values : List (Felt k)) (bits : List Bool) : Prop :=
  match role with
  | composition order => values = (order.arrange bits).map Felt.ofBool
  | _ => values = [sumAfter 0 bits]

namespace Gadget

/-- The layout has the columns that the gadget needs, as is checked when a gadget is made. -/
def Made (g : Gadget k) : Prop :=
  match g with
  | row kind l => kind.width ≤ l.witness.length ∧ kind.constantWidth ≤ l.constant.length
  | bits _ _ => True

theorem eq_of_ofRow {kind : RowKind k} {l : Layout} {g : Gadget k} (h : ofRow kind l = .ok g) :
    g = row kind l := by
  obtain ⟨_, -, hg⟩ := bind_eq_ok.mp h
  exact (Except.ok.inj hg).symm

/-- A gadget that was made fits its layout. -/
theorem made_of_ofRow {kind : RowKind k} {l : Layout} {g : Gadget k} (h : ofRow kind l = .ok g) :
    g.Made := by
  obtain ⟨_, hcheck, hg⟩ := bind_eq_ok.mp h
  obtain rfl := Except.ok.inj hg
  unfold Layout.check at hcheck
  split at hcheck
  · cases hcheck
  · next hwitness =>
      split at hcheck
      · cases hcheck
      · next hconstant => exact ⟨not_lt.mp hwitness, not_lt.mp hconstant⟩

/-- The values that a gadget is meant for, but for sums of points. -/
def Admits (g : Gadget k) (values : List (Felt k)) : Prop :=
  match g with
  | row kind _ => kind.Admits values
  | bits (.composition _) b => values.length = b.bits ∧ ∀ a ∈ values, a.IsBit
  | bits _ b => ∃ a, values = [a] ∧ a.val < 2 ^ b.bits

/-- The number of witness columns that a gadget writes to. -/
def width (g : Gadget k) : Nat :=
  match g with
  | row kind _ => kind.width
  | bits _ b => b.layout.witness.length

theorem rows_pos (g : Gadget k) : 0 < g.rows := by
  cases g with
  | row kind l => exact Nat.one_pos
  | bits role b => exact b.rows_pos

/-- The rows of an instance show what it writes for some values. -/
def Filled (g : Gadget k) (t : Table k) (values : List (Felt k)) (start : Nat) : Prop :=
  match g with
  | row kind l => ∃ cells, kind.cells values = .ok cells ∧ t.ShowsRow l start cells
  | bits role b =>
    ∃ bits, bits.length = b.bits ∧ role.Carries values bits ∧ b.Shows t start bits

/-- The rows stay filled as long as no witness cell changes. -/
theorem Filled.mono {g : Gadget k} {t t' : Table k} {values : List (Felt k)} {start : Nat}
    (h : g.Filled t values start) (hframe : ∀ c, c.kind = .witness → t'.cellAt c = t.cellAt c) :
    g.Filled t' values start := by
  cases g with
  | row kind l =>
      obtain ⟨cells, hcells, hshows⟩ := h
      exact ⟨cells, hcells, fun i x hx => (hframe _ rfl).trans (hshows i x hx)⟩
  | bits role b =>
      obtain ⟨bits, hbits, hcarries, hshows⟩ := h
      exact ⟨bits, hbits, hcarries, hshows.mono hframe⟩

/-! ### Writing the witness -/

section Assign

variable {a : Assembly k} {input : List Variable} {start : Nat}

/-- Writing a row whose cells can be computed from the inputs. -/
theorem runs_row_assign {kind : RowKind k} {l : Layout} {cells : List (Felt k)}
    (hwidth : kind.width ≤ l.witness.length) (hl : a.table.HasLayout l)
    (hrow : start < a.table.rows) (hinput : ∀ v ∈ input, a.table.HoldsAbsolute v)
    (harity : input.length = kind.arity)
    (hcells : kind.cells (input.map (a.table.valueAt 0)) = .ok cells)
    (hlen : cells.length = kind.width) :
    ∃ t, Runs (kind.assign l input start) a () ⟨a.circuit, t⟩ ∧
      a.table.Changes t (l.block start 1 kind.width) ∧ t.ShowsRow l start cells := by
  have hfits : cells.length ≤ l.witness.length := hlen ▸ hwidth
  obtain ⟨t, hrun, hchange, hshows⟩ := Build.runs_writeRow hl hrow hfits
  have hread : Runs (input.mapM Build.read) a (input.map (a.table.valueAt 0)) a :=
    Runs.mapM fun v hv => Build.runs_read (hinput v hv)
  refine ⟨t, ?_, hchange.mono ?_, hshows⟩
  · rw [RowKind.assign, if_neg (not_not.mpr harity)]
    exact hread.bind ((Build.runs_ofExcept hcells).bind hrun)
  · rintro c ⟨i, hi, rfl⟩
    exact ⟨0, Nat.one_pos, i, hlen ▸ hi, by rw [Nat.zero_add]; rfl⟩

/-- The gadgets of one number fill their rows with its digits when the number fits. -/
theorem runs_number_assign {b : BitRows} {v : Variable} (hl : a.table.HasLayout b.layout)
    (hrows : start + b.rows ≤ a.table.rows) (hsmall : start + b.rows ≤ 2 ^ 31)
    (hv : a.table.HoldsAbsolute v) (hval : (a.table.valueAt 0 v).val < 2 ^ b.bits) :
    ∃ t, Runs (do
        let value ← readOne b.name [v]
        discard (b.assign (← Build.ofExcept (b.digits value)) start)) a () ⟨a.circuit, t⟩ ∧
      a.table.Changes t (b.layout.block start b.rows b.layout.witness.length) ∧
      b.Shows t start (binaryDigits b.bits (a.table.valueAt 0 v).val) := by
  set value := a.table.valueAt 0 v with hvalue
  have hdigits : b.digits value = .ok (binaryDigits b.bits value.val) := by
    rw [b.digits_eq, if_pos hval]
  obtain ⟨t, hrun, hchange, hshows⟩ :=
    BitRows.runs_assign hl hrows (hsmall.trans (by decide)) (length_binaryDigits b.bits value.val)
  have hread : Runs (readOne b.name [v]) a value a :=
    Build.runs_read hv
  exact ⟨t, hread.bind ((Build.runs_ofExcept hdigits).bind hrun.discard), hchange, hshows⟩

/-- The gadgets of given bits fill their rows with those bits. -/
theorem runs_composition_assign {order : BitOrder} {b : BitRows} (hl : a.table.HasLayout b.layout)
    (hrows : start + b.rows ≤ a.table.rows) (hsmall : start + b.rows ≤ 2 ^ 31)
    (hinput : ∀ v ∈ input, a.table.HoldsAbsolute v) (hlen : input.length = b.bits)
    (hbits : ∀ v ∈ input, (a.table.valueAt 0 v).IsBit) :
    ∃ t, Runs ((bits (.composition order) b).assignCells input start) a () ⟨a.circuit, t⟩ ∧
      a.table.Changes t (b.layout.block start b.rows b.layout.witness.length) ∧
      (bits (.composition order) b).Filled t (input.map (a.table.valueAt 0)) start := by
  set values := input.map fun v => (a.table.valueAt 0 v).toBool with hvalues
  have hread : Runs (input.mapM fun v => do Build.ofExcept (b.ofInput (← Build.read v))) a
      values a :=
    Runs.mapM fun v hv => (Build.runs_read (hinput v hv)).bind
      (Build.runs_ofExcept (b.ofInput_eq (hbits v hv)))
  have hcount : (order.arrange values).length = b.bits := by
    rw [BitOrder.length_arrange, hvalues, List.length_map, hlen]
  obtain ⟨t, hrun, hchange, hshows⟩ :=
    BitRows.runs_assign hl hrows (hsmall.trans (by decide)) hcount
  refine ⟨t, ?_, hchange, _, hcount, ?_, hshows⟩
  · rw [assignCells, if_neg (not_not.mpr hlen)]
    exact hread.bind hrun.discard
  · -- The bits are arranged twice, which is as they were given.
    show _ = (order.arrange (order.arrange values)).map Felt.ofBool
    rw [BitOrder.arrange_arrange, hvalues, List.map_map]
    exact List.map_congr_left fun v hv => (Felt.ofBool_toBool (hbits v hv)).symm

/-- **Writing the witness** of an instance. -/
theorem runs_assignCells {g : Gadget k} (hmade : g.Made) (hl : a.table.HasLayout g.layout)
    (hrows : start + g.rows ≤ a.table.rows) (hsmall : start + g.rows ≤ 2 ^ 31)
    (hinput : ∀ v ∈ input, a.table.HoldsAbsolute v)
    (hadm : g.Admits (input.map (a.table.valueAt 0))) :
    ∃ t, Runs (g.assignCells input start) a () ⟨a.circuit, t⟩ ∧
      a.table.Changes t (g.layout.block start g.rows g.width) ∧
      g.Filled t (input.map (a.table.valueAt 0)) start := by
  cases g with
  | row kind l =>
      obtain ⟨cells, hcells, hlen, -⟩ := RowKind.exists_cells hadm
      have harity : input.length = kind.arity := by
        rw [← RowKind.Admits.length_eq hadm, List.length_map]
      obtain ⟨t, hrun, hchange, hshows⟩ :=
        runs_row_assign hmade.1 hl (Nat.lt_of_succ_le hrows) hinput harity hcells hlen
      exact ⟨t, hrun, hchange, cells, hcells, hshows⟩
  | bits role b =>
      cases role with
      | composition order =>
          obtain ⟨hlen, hbits⟩ := hadm
          rw [List.length_map] at hlen
          rw [List.forall_mem_map] at hbits
          exact runs_composition_assign hl hrows hsmall hinput hlen hbits
      | decomposition _ | rangeCheck =>
          obtain ⟨x, hx, hval⟩ := hadm
          obtain ⟨v, rfl⟩ := List.length_eq_one_iff.mp (by
            rw [← List.length_map (a.table.valueAt 0), hx]; rfl)
          obtain rfl := List.singleton_inj.mp hx
          obtain ⟨t, hrun, hchange, hshows⟩ :=
            runs_number_assign hl hrows hsmall (hinput v List.mem_cons_self) hval
          exact ⟨t, hrun, hchange, _, length_binaryDigits _ _,
            congrArg (fun x => [x]) (sumAfter_val hval).symm, hshows⟩

end Assign

/-! ### The gates -/

/-- The constraints of the gates of a gadget. -/
def constraintLists (g : Gadget k) : List (List (Expr k)) :=
  match g with
  | row kind l => [kind.constraintsOn l]
  | bits _ b =>
    if 1 < b.rows then [b.constraints true, b.constraints false] else [b.constraints true]

/-- The cells that enabling the gates writes: the first selector in the first row, and the second
one in the others. -/
def selectorCells (g : Gadget k) (selectors : List Nat) (start : Nat) : Set Cell :=
  {c | ∃ r < g.rows, ∃ s, selectors[min r 1]? = some s ∧ c = ⟨.selector, s, start + r⟩}

section Gates

variable {a : Assembly k} {start : Nat}

/-- The gates of a gadget are registered in order, with no change of the table. -/
theorem runs_gates (g : Gadget k) (a : Assembly k) :
    Runs g.gates a (a.circuit.addGates g.constraintLists).1
      ⟨(a.circuit.addGates g.constraintLists).2, a.table⟩ := by
  cases g with
  | row kind l => exact (Build.runs_addGate _).bind (Runs.pure _ _)
  | bits role b =>
      show Runs b.gates a _ _
      rw [BitRows.gates, constraintLists]
      split
      · exact (Build.runs_addGate _).bind ((Build.runs_addGate _).bind (Runs.pure _ _))
      · exact (Build.runs_addGate _).bind (Runs.pure _ _)

/-- Enabling the only gate of an instance in its first row. -/
theorem runs_enable_first {g : Gadget k} {s columns : Nat} (hrows : start + g.rows ≤ a.table.rows)
    (hmem : a.table.Affords columns) (hlt : s < columns) :
    ∃ t, Runs (Build.enable s start) a () ⟨a.circuit, t⟩ ∧
      a.table.Changes t (g.selectorCells [s] start) := by
  have hpos := g.rows_pos
  have hrow : start < a.table.rows := by omega
  obtain ⟨t, hrun, hchange⟩ := Build.runs_enable hrow hmem hlt
  refine ⟨t, hrun, hchange.mono ?_⟩
  rintro c rfl
  exact ⟨0, hpos, s, rfl, rfl⟩

/-- Enabling one gate in the first row and the other one in the rows below. -/
theorem runs_enable_rows {role : BitRole} {b : BitRows} {s s' columns : Nat} (hmany : 1 < b.rows)
    (hrows : start + b.rows ≤ a.table.rows) (hsmall : start + b.rows ≤ 2 ^ 31)
    (hmem : a.table.Affords columns) (hlt : s < columns) (hlt' : s' < columns) :
    ∃ t, Runs (b.enable [s, s'] start) a () ⟨a.circuit, t⟩ ∧
      a.table.Changes t ((bits role b : Gadget k).selectorCells [s, s'] start) := by
  have hrow : start < a.table.rows := by omega
  obtain ⟨t, hrun, hchange⟩ := Build.runs_enable hrow hmem hlt
  -- The range ends in the last row, which is the second one plus `b.rows - 2`.
  have hothers : start + 1 + (b.rows - 2) < t.rows := by
    rw [hchange.rows_eq]
    omega
  have hmem' : t.Affords columns := by rwa [Table.Affords, hchange.rows_eq]
  obtain ⟨t', hrun', hchange'⟩ := Build.runs_enableRange (a := ⟨a.circuit, t⟩) hothers hmem' hlt'
  have hsecond : Count.add start 1 = .ok (start + 1) := Count.check_of_lt (by omega)
  have hend : Count.add start b.rows = .ok (start + b.rows) := Count.check_of_lt (by omega)
  have hlast : start + b.rows - 1 = start + 1 + (b.rows - 2) := by omega
  refine ⟨t', ?_, (hchange.trans hchange').mono ?_⟩
  · refine hrun.bind ((Build.runs_ofFault hsecond).bind ((Build.runs_ofFault hend).bind ?_))
    rw [hlast]
    exact hrun'
  · rintro ⟨kind, index, row⟩ (hfirst | ⟨rfl, rfl, hrow⟩)
    · rw [Set.mem_singleton_iff] at hfirst
      exact ⟨0, b.rows_pos, s, rfl, hfirst⟩
    · obtain ⟨i, hi, rfl⟩ := List.mem_range'.mp hrow
      refine ⟨i + 1, show i + 1 < b.rows by omega, index, ?_, ?_⟩
      · rw [Nat.min_eq_right (Nat.le_add_left 1 i)]
        rfl
      · rw [Nat.one_mul, Nat.add_assoc, Nat.add_comm 1]

/-- **Enabling the gates** of an instance. -/
theorem runs_enable {g : Gadget k} {selectors : List Nat} {columns : Nat}
    (hlen : selectors.length = g.constraintLists.length) (hlt : ∀ s ∈ selectors, s < columns)
    (hrows : start + g.rows ≤ a.table.rows) (hsmall : start + g.rows ≤ 2 ^ 31)
    (hmem : a.table.Affords columns) :
    ∃ t, Runs (g.enable selectors start) a () ⟨a.circuit, t⟩ ∧
      a.table.Changes t (g.selectorCells selectors start) := by
  cases g with
  | row kind l =>
      obtain ⟨s, rfl⟩ := List.length_eq_one_iff.mp hlen
      obtain ⟨t, hrun, hchange⟩ := runs_enable_first hrows hmem (hlt s List.mem_cons_self)
      exact ⟨t, hrun.bind (Runs.pure () _), hchange⟩
  | bits role b =>
      rw [constraintLists] at hlen
      split at hlen
      · next hmany =>
          obtain ⟨s, s', rfl⟩ := List.length_eq_two.mp hlen
          exact runs_enable_rows hmany hrows hsmall hmem (hlt s List.mem_cons_self)
            (hlt s' (List.mem_cons_of_mem _ List.mem_cons_self))
      · obtain ⟨s, rfl⟩ := List.length_eq_one_iff.mp hlen
        obtain ⟨t, hrun, hchange⟩ := runs_enable_first hrows hmem (hlt s List.mem_cons_self)
        exact ⟨t, hrun.bind (Runs.pure () _), hchange⟩

end Gates

/-! ### The constants -/

/-- The cells of the constants. -/
def constantCells (g : Gadget k) (start : Nat) : Set Cell :=
  match g with
  | row (.scaling _) l => {⟨.constant, (l.constant.getD 0 0).toNat, start⟩}
  | _ => ∅

/-- The cells of the constants hold them. -/
def HoldsConstants (g : Gadget k) (t : Table k) (start : Nat) : Prop :=
  match g with
  | row (.scaling factor) l => t.cellAt ⟨.constant, (l.constant.getD 0 0).toNat, start⟩ = factor
  | _ => True

/-- The constants of a gadget are written to the first row, where the gates expect them. -/
theorem runs_assignConstants {g : Gadget k} {a : Assembly k} {start : Nat} (hmade : g.Made)
    (hl : a.table.HasLayout g.layout) (hrow : start < a.table.rows) (hsmall : start < 2 ^ 31) :
    ∃ t, Runs (g.assignConstants start) a () ⟨a.circuit, t⟩ ∧
      a.table.Changes t (g.constantCells start) ∧ g.HoldsConstants t start := by
  have hnone : a.table.Changes a.table (∅ : Set Cell) := Table.Changes.refl _
  cases g with
  | row kind l =>
      cases kind with
      | scaling factor => exact Build.runs_writeConstant hl hmade.2 hrow hsmall factor
      | arithmetic op => exact ⟨a.table, Runs.pure () a, hnone, trivial⟩
      | logic op => exact ⟨a.table, Runs.pure () a, hnone, trivial⟩
      | points => exact ⟨a.table, Runs.pure () a, hnone, trivial⟩
  | bits role b => exact ⟨a.table, Runs.pure () a, hnone, trivial⟩

/-! ### The cells of the inputs -/

end Gadget

/-- The cells of the bits of an instance, as variables. -/
def BitRows.bitVariables (b : BitRows) (start : Nat) : List Variable :=
  (List.range' b.padding b.bits).map fun slot =>
    b.layout.cellVariable (slot % b.perRow + 1) (start + slot / b.perRow)

/-- Every digit has a cell of the block of rows. -/
theorem BitRows.slot_lt {b : BitRows} {slot : Nat} (h : slot ∈ List.range' b.padding b.bits) :
    slot % b.perRow + 1 < b.layout.witness.length ∧ slot / b.perRow < b.rows := by
  obtain ⟨i, hi, rfl⟩ := List.mem_range'.mp h
  have hmod := Nat.mod_lt (b.padding + 1 * i) b.perRow_pos
  have hslots := b.padding_add_bits
  have hwidth := b.width_eq
  refine ⟨by omega, ?_⟩
  rw [Nat.div_lt_iff_lt_mul b.perRow_pos]
  omega

/-- The cells of the slots, in rows that can be counted. -/
theorem BitRows.cells_eq_mapM {b : BitRows} {start : Nat} (h : start + b.rows ≤ 2 ^ 64) :
    b.cells start = (List.range' b.padding b.bits).mapM fun slot =>
      b.layout.witnessCell (slot % b.perRow + 1) (start + slot / b.perRow) := by
  refine mapM_congr fun slot hslot => ?_
  obtain ⟨-, hrow⟩ := slot_lt hslot
  have hadd : Count.add start (slot / b.perRow) = .ok (start + slot / b.perRow) :=
    Count.check_of_lt (by omega)
  rw [hadd]
  rfl

/-- The cells of the digits can be named when the rows end by `2^31`. -/
theorem BitRows.cells_eq {b : BitRows} {start : Nat} (h : start + b.rows ≤ 2 ^ 31) :
    b.cells start = .ok (b.bitVariables start) := by
  rw [cells_eq_mapM (by omega)]
  refine mapM_eq_map fun slot hslot => ?_
  obtain ⟨hcolumn, hrow⟩ := slot_lt hslot
  exact Layout.witnessCell_eq hcolumn (by omega)

/-- The last row's cell of the sum can be named as well. -/
theorem BitRows.sumCell_eq {b : BitRows} {start : Nat} (h : start + b.rows ≤ 2 ^ 31) :
    b.sumCell start = .ok (b.layout.cellVariable b.sumColumn (start + b.rows - 1)) := by
  have hadd : Count.add start b.rows = .ok (start + b.rows) := Count.check_of_lt (by omega)
  have hpos := b.rows_pos
  rw [sumCell, hadd]
  exact Layout.witnessCell_eq b.sumColumn_lt (by omega)

namespace Gadget

/-- The cells that the inputs of an instance are copied to. -/
def inputCells (g : Gadget k) (start : Nat) : List Variable :=
  match g with
  | row kind l => (List.range' 0 kind.arity).map fun i => l.cellVariable i start
  | bits (.composition order) b => order.arrange (b.bitVariables start)
  | bits _ b => [b.layout.cellVariable b.sumColumn (start + b.rows - 1)]

/-- The copy constraints of an instance. -/
def copyPairs (g : Gadget k) (input : List Variable) (start : Nat) : List CopyConstraint :=
  (input.zip (g.inputCells start)).map fun c => ⟨c.1, c.2⟩

end Gadget

/-- The inputs of a row gadget fit its row. -/
theorem RowKind.arity_le_width (kind : RowKind k) : kind.arity ≤ kind.width := by
  cases kind with
  | arithmetic op => exact (Nat.le_succ 2).trans op.three_le_width
  | scaling factor => exact Nat.le_succ 1
  | logic op => exact Nat.le_succ _
  | points => exact (by decide : 4 ≤ 11)

theorem BitOrder.mem_arrange {α : Type} (order : BitOrder) {x : α} {l : List α} :
    x ∈ order.arrange l ↔ x ∈ l := by
  cases order with
  | mostSignificantFirst => exact Iff.rfl
  | leastSignificantFirst => exact List.mem_reverse

namespace Gadget

/-- The inputs are copied to cells of the instance. -/
theorem mem_inputCells {g : Gadget k} (hmade : g.Made) {start : Nat} {v : Variable}
    (hv : v ∈ g.inputCells start) : ∃ r < g.rows, ∃ i < g.layout.witness.length,
      v = g.layout.cellVariable i (start + r) := by
  cases g with
  | row kind l =>
      obtain ⟨i, hi, rfl⟩ := List.mem_map.mp hv
      obtain ⟨j, hj, rfl⟩ := List.mem_range'.mp hi
      refine ⟨0, Nat.one_pos, 0 + 1 * j, ?_, rfl⟩
      rw [Nat.one_mul, Nat.zero_add]
      exact (hj.trans_le kind.arity_le_width).trans_le hmade.1
  | bits role b =>
      cases role with
      | composition order =>
          obtain ⟨slot, hslot, rfl⟩ := List.mem_map.mp (order.mem_arrange.mp hv)
          obtain ⟨hcolumn, hrow⟩ := BitRows.slot_lt hslot
          exact ⟨slot / b.perRow, hrow, _, hcolumn, rfl⟩
      | decomposition _ | rangeCheck =>
          obtain rfl := List.mem_singleton.mp hv
          have hpos := b.rows_pos
          refine ⟨b.rows - 1, Nat.sub_lt hpos Nat.one_pos, b.sumColumn, b.sumColumn_lt, ?_⟩
          rw [Nat.add_sub_assoc hpos]
          rfl

/-- The cells that the inputs are copied to are named absolutely. -/
theorem relative_of_mem_inputCells {g : Gadget k} (hmade : g.Made) {start : Nat} {v : Variable}
    (hv : v ∈ g.inputCells start) : v.relative = false := by
  obtain ⟨r, -, i, -, rfl⟩ := mem_inputCells hmade hv
  rfl

/-- A gadget admits values for all of its inputs. -/
theorem Admits.length_eq {g : Gadget k} {values : List (Felt k)} (h : g.Admits values)
    (start : Nat) :
    values.length = (g.inputCells start).length := by
  cases g with
  | row kind l => rw [inputCells, List.length_map, List.length_range', RowKind.Admits.length_eq h]
  | bits role b =>
      cases role with
      | composition order =>
          rw [inputCells, BitOrder.length_arrange, BitRows.bitVariables, List.length_map,
            List.length_range', h.1]
      | decomposition _ | rangeCheck =>
          obtain ⟨x, rfl, -⟩ := h
          rfl

/-! ### Copying the inputs -/

section Copies

variable {a : Assembly k} {input : List Variable} {start : Nat}

/-- The copy constraints of a row can be made, since both sides are absolute. -/
theorem runs_copyInputs {l : Layout} {i : Nat} (hlen : i + input.length ≤ l.witness.length)
    (hstart : start < 2 ^ 31) (hinput : ∀ v ∈ input, v.relative = false) :
    Runs (RowKind.copyInputs l start i input) a ()
      ⟨a.circuit.addCopies ((input.zip ((List.range' i input.length).map fun j =>
        l.cellVariable j start)).map fun c => ⟨c.1, c.2⟩), a.table⟩ := by
  induction input generalizing a i with
  | nil => exact Runs.pure () a
  | cons v input ih =>
      rw [List.length_cons] at hlen
      have hcell : l.witnessCell i start = .ok (l.cellVariable i start) :=
        Layout.witnessCell_eq (by omega) hstart
      refine (Build.runs_ofFault hcell).bind
        ((Build.runs_addCopy (hinput v List.mem_cons_self) rfl).bind ?_)
      exact ih (by omega) fun w hw => hinput w (List.mem_cons_of_mem _ hw)

/-- **Copying the inputs** of an instance. -/
theorem runs_copies {g : Gadget k} (hmade : g.Made) (hrows : start + g.rows ≤ 2 ^ 31)
    (hinput : ∀ v ∈ input, v.relative = false) (hlen : input.length = (g.inputCells start).length) :
    Runs (g.copies input start) a ()
      ⟨a.circuit.addCopies (g.copyPairs input start), a.table⟩ := by
  have hcells : ∀ v ∈ g.inputCells start, v.relative = false := fun v hv =>
    relative_of_mem_inputCells hmade hv
  cases g with
  | row kind l =>
      rw [inputCells, List.length_map, List.length_range'] at hlen
      rw [copyPairs, inputCells, ← hlen]
      refine runs_copyInputs ?_ (Nat.lt_of_succ_le hrows) hinput
      rw [Nat.zero_add, hlen]
      exact kind.arity_le_width.trans hmade.1
  | bits role b =>
      cases role with
      | composition order =>
          refine (Build.runs_ofFault (BitRows.cells_eq hrows)).bind (Build.runs_addCopies ?_)
          intro c hc
          obtain ⟨hfirst, hsecond⟩ := List.of_mem_zip hc
          exact ⟨hinput _ hfirst, hcells _ hsecond⟩
      | decomposition _ | rangeCheck =>
          obtain ⟨v, rfl⟩ := List.length_eq_one_iff.mp hlen
          exact (Build.runs_ofFault (BitRows.sumCell_eq hrows)).bind
            (Build.runs_addCopy (hinput v List.mem_cons_self) rfl)

end Copies

/-! ### The output -/

/-- The cells of the output of an instance, as variables. -/
def outputCells (g : Gadget k) (start : Nat) : List Variable :=
  match g with
  | row kind l => kind.results.map fun i => l.cellVariable i start
  | bits (.decomposition order) b => order.arrange (b.bitVariables start)
  | bits (.composition _) b => [b.layout.cellVariable b.sumColumn (start + b.rows - 1)]
  | bits .rangeCheck _ => []

end Gadget

theorem RowKind.results_lt {kind : RowKind k} {i : Nat} (h : i ∈ kind.results) :
    i < kind.width := by
  cases kind with
  | arithmetic op =>
      obtain rfl := List.mem_singleton.mp h
      exact op.three_le_width
  | scaling factor =>
      obtain rfl := List.mem_singleton.mp h
      exact Nat.lt_succ_self 1
  | logic op =>
      obtain rfl := List.mem_singleton.mp h
      exact Nat.lt_succ_self op.arity
  | points =>
      rcases List.mem_pair.mp h with rfl | rfl
      · exact Nat.le_of_ble_eq_true rfl
      · exact Nat.le_of_ble_eq_true rfl

namespace Gadget

/-- The outputs of a gadget can be named when the rows end by `2^31`. -/
theorem result_eq {g : Gadget k} (hmade : g.Made) {start : Nat} (hrows : start + g.rows ≤ 2 ^ 31) :
    g.result start = .ok (g.outputCells start) := by
  cases g with
  | row kind l =>
      refine mapM_eq_map fun i hi => Layout.witnessCell_eq ?_ (Nat.lt_of_succ_le hrows)
      exact (RowKind.results_lt hi).trans_le hmade.1
  | bits role b =>
      cases role with
      | decomposition order => rw [result, BitRows.cells_eq hrows]; rfl
      | composition order => rw [result, BitRows.sumCell_eq hrows]; rfl
      | rangeCheck => rfl

/-! ### Placing an instance -/

/-- The cells that placing an instance writes, with the selectors of its gates. -/
def written (g : Gadget k) (selectors : List Nat) (start : Nat) : Set Cell :=
  g.layout.block start g.rows g.width ∪ g.selectorCells selectors start ∪ g.constantCells start

theorem mem_constantCells {g : Gadget k} {start : Nat} {c : Cell} (h : c ∈ g.constantCells start) :
    c.kind = .constant ∧ c.row = start := by
  cases g with
  | row kind l =>
      cases kind with
      | scaling factor =>
          obtain rfl := h
          exact ⟨rfl, rfl⟩
      | arithmetic _ | logic _ | points => exact h.elim
  | bits role b => exact h.elim

/-- A gadget writes to its own rows only. -/
theorem row_of_mem_written {g : Gadget k} {selectors : List Nat} {start : Nat} {c : Cell}
    (h : c ∈ g.written selectors start) : ∃ r < g.rows, c.row = start + r := by
  rcases h with (⟨r, hr, i, -, rfl⟩ | ⟨r, hr, s, -, rfl⟩) | hconstant
  · exact ⟨r, hr, rfl⟩
  · exact ⟨r, hr, rfl⟩
  · exact ⟨0, g.rows_pos, (mem_constantCells hconstant).2⟩

/-- A selector cell is only written by enabling the selector. -/
theorem mem_selectorCells_of_written {g : Gadget k} {selectors : List Nat} {start s row : Nat}
    (h : ⟨.selector, s, row⟩ ∈ g.written selectors start) :
    ∃ r < g.rows, selectors[min r 1]? = some s ∧ row = start + r := by
  rcases h with (⟨r, -, i, -, hcell⟩ | ⟨r, hr, s', hs, hcell⟩) | hconstant
  · exact absurd (congrArg Cell.kind hcell) nofun
  · rw [Cell.mk.injEq] at hcell
    obtain ⟨-, rfl, hrow⟩ := hcell
    exact ⟨r, hr, hs, hrow⟩
  · exact absurd (mem_constantCells hconstant).1 nofun

/-- **Adding an instance** to the circuit answers, and enables the gates of the gadget. -/
theorem runs_build {g : Gadget k} {a : Assembly k} {input : List Variable} {start : Nat}
    (hmade : g.Made) (hl : a.table.HasLayout g.layout) (hrows : start + g.rows ≤ a.table.rows)
    (hsmall : start + g.rows ≤ 2 ^ 31) (hinput : ∀ v ∈ input, v.relative = false)
    (hlen : input.length = (g.inputCells start).length) (hreg : a.circuit.Registered)
    (hmem : a.table.Affords (a.circuit.addGates g.constraintLists).2.gates.size) :
    ∃ t, Runs (g.build input start) a (g.outputCells start)
        ⟨(a.circuit.addGates g.constraintLists).2.addCopies (g.copyPairs input start), t⟩ ∧
      a.table.Changes t (g.selectorCells (a.circuit.addGates g.constraintLists).1 start ∪
        g.constantCells start) ∧ g.HoldsConstants t start := by
  obtain ⟨-, -, hleads⟩ := hreg.addGates g.constraintLists
  have hlt : ∀ s ∈ (a.circuit.addGates g.constraintLists).1,
      s < (a.circuit.addGates g.constraintLists).2.gates.size := by
    intro s hs
    obtain ⟨i, hi⟩ := List.mem_iff_getElem?.mp hs
    obtain ⟨constraints, -, hlead⟩ := Circuit.exists_leads hleads hi
    exact hlead.lt
  obtain ⟨t₁, henable, hchange₁⟩ := runs_enable
    (a := ⟨(a.circuit.addGates g.constraintLists).2, a.table⟩) hleads.length_eq.symm hlt
      hrows hsmall
    hmem
  have hpos := g.rows_pos
  have hrow : start < t₁.rows := hchange₁.rows_eq ▸ (show start < a.table.rows by omega)
  obtain ⟨t₂, hconstants, hchange₂, hholds⟩ := runs_assignConstants
    (a := ⟨(a.circuit.addGates g.constraintLists).2, t₁⟩) hmade (hchange₁.hasLayout hl) hrow
    (by omega)
  refine ⟨t₂, ?_, hchange₁.trans hchange₂, hholds⟩
  exact (runs_gates g _).bind (henable.bind (hconstants.bind
    ((runs_copies hmade hsmall hinput hlen).bind (Build.runs_ofFault (result_eq hmade hsmall)))))

/-- Adding an instance to the circuit leaves its witness as it is. -/
theorem kind_ne_of_mem_selectorCells {g : Gadget k} {selectors : List Nat} {start : Nat} {c : Cell}
    (h : c ∈ g.selectorCells selectors start ∪ g.constantCells start) : c.kind ≠ .witness := by
  rcases h with ⟨r, -, s, -, rfl⟩ | hconstant
  · nofun
  · rw [(mem_constantCells hconstant).1]
    nofun

/-- **Placing an instance** answers, and writes what the gadget is meant to. -/
theorem runs_synthesize {g : Gadget k} {a : Assembly k} {input : List Variable} {start : Nat}
    (hmade : g.Made) (hl : a.table.HasLayout g.layout) (hrows : start + g.rows ≤ a.table.rows)
    (hsmall : start + g.rows ≤ 2 ^ 31) (hinput : ∀ v ∈ input, a.table.HoldsAbsolute v)
    (hadm : g.Admits (input.map (a.table.valueAt 0))) (hreg : a.circuit.Registered)
    (hmem : a.table.Affords (a.circuit.addGates g.constraintLists).2.gates.size) :
    ∃ t, Runs (g.synthesize input start) a (g.outputCells start)
        ⟨(a.circuit.addGates g.constraintLists).2.addCopies (g.copyPairs input start), t⟩ ∧
      a.table.Changes t (g.written (a.circuit.addGates g.constraintLists).1 start) ∧
      g.Filled t (input.map (a.table.valueAt 0)) start ∧ g.HoldsConstants t start := by
  have hresult := result_eq hmade hsmall
  have hlen : input.length = (g.inputCells start).length := by
    rw [← hadm.length_eq, List.length_map]
  obtain ⟨t₁, hassign, hchange₁, hfilled⟩ := runs_assignCells hmade hl hrows hsmall hinput hadm
  obtain ⟨t₂, hbuild, hchange₂, hholds⟩ := runs_build (a := ⟨a.circuit, t₁⟩) hmade
    (hchange₁.hasLayout hl) (hchange₁.rows_eq ▸ hrows) hsmall
    (fun v hv => (hinput v hv).absolute) hlen hreg (by rwa [Table.Affords, hchange₁.rows_eq])
  have hchange := hchange₁.trans hchange₂
  rw [← Set.union_assoc] at hchange
  refine ⟨t₂, (hassign.bind (Build.runs_ofFault hresult)).bind hbuild, hchange, ?_, hholds⟩
  exact hfilled.mono fun c hc =>
    hchange₂.frame c fun hmem => kind_ne_of_mem_selectorCells hmem hc

end Gadget

end Plonkish
