import Plonkish.Proofs.Instances
import Plonkish.Proofs.Inversion

/-!
# Proofs — instances in accepted tables

A call that adds an instance of a gadget to a circuit, and answers, has enabled the gates of the
gadget in the rows of the instance and copied its inputs to cells of the instance
(`Gadget.Installed`, `Gadget.installed_of_build`).  The calls after it keep both.

A table that is accepted then enforces what the gadget asks for, whoever filled it in
(`Gadget.Installed.enforced`): in the rows of the instance, the constraints vanish and read cells
that exist, and the cells that the inputs are copied to hold the inputs (`Gadget.Enforced`).
-/

namespace Plonkish

variable {k : BaseField} {a a' : Assembly k} {input outs : List Variable} {start : Nat}

open Build (Runs Keeps runs_bind_iff runs_ofFault_bind_iff)

/-! ### Every call keeps what is there -/

theorem RowKind.keeps_assign (kind : RowKind k) (l : Layout) (input : List Variable) (row : Nat) :
    Keeps (kind.assign l input row) := by
  rw [assign]
  split
  · exact (Keeps.throw _).bind fun _ => (Keeps.mapM fun v _ => .read v).bind fun _ =>
      (Keeps.ofExcept _).bind fun _ => .writeRow _ _ _ _
  · exact (Keeps.mapM fun v _ => .read v).bind fun _ =>
      (Keeps.ofExcept _).bind fun _ => .writeRow _ _ _ _

theorem RowKind.keeps_copyInputs (l : Layout) (row i : Nat) (input : List Variable) :
    Keeps (k := k) (copyInputs l row i input) := by
  induction input generalizing i with
  | nil => exact .pure ()
  | cons v input ih =>
      exact (Keeps.ofFault _).bind fun _ => (Keeps.addCopy v _).bind fun _ => ih (i + 1)

namespace BitRows

theorem keeps_assignBits (b : BitRows) (row j : Nat) (s : Felt k) (bits : List Bool) :
    Keeps (b.assignBits row j s bits) := by
  induction bits generalizing j s with
  | nil => exact .pure s
  | cons bit bits ih => exact (Keeps.writeWitness _ _ _ _).bind fun _ => ih _ _

/-- Filling the rows keeps what there is in the circuit. -/
theorem keeps_assign (b : BitRows) (bits : List Bool) (start : Nat) :
    Keeps (k := k) (b.assign bits start) := by
  refine Keeps.foldlM (fun s r _ => ?_) 0
  refine (Keeps.ofFault _).bind fun row => ?_
  exact (Keeps.writeWitness _ _ _ _).bind fun _ => (b.keeps_assignBits _ _ _ _).bind fun _ =>
    (Keeps.writeWitness _ _ _ _).bind fun _ => .pure _

theorem keeps_gates (b : BitRows) : Keeps (k := k) b.gates := by
  rw [gates]
  refine (Keeps.addGate _).bind fun first => ?_
  split
  · exact (Keeps.addGate _).bind fun _ => .pure _
  · exact .pure _

theorem keeps_enable (b : BitRows) (selectors : List Nat) (start : Nat) :
    Keeps (k := k) (b.enable selectors start) := by
  cases selectors with
  | nil => exact .throw _
  | cons first others =>
      refine (Keeps.enable _ _).bind fun _ => ?_
      cases others with
      | nil => exact .pure ()
      | cons next rest =>
          exact (Keeps.ofFault _).bind fun _ => (Keeps.ofFault _).bind fun _ => .enableRange _ _ _

end BitRows

namespace Gadget

variable {g : Gadget k}

theorem keeps_readOne (name : String) (input : List Variable) :
    Keeps (k := k) (readOne name input) := by
  unfold readOne
  split
  · exact .read _
  · exact .throw _

theorem keeps_assignCells (g : Gadget k) (input : List Variable) (start : Nat) :
    Keeps (g.assignCells input start) := by
  cases g with
  | row kind l => exact kind.keeps_assign l input start
  | bits role b =>
      cases role with
      | composition order =>
          have hbits : Keeps (k := k) (do
              let values ← input.mapM fun v => do Build.ofExcept (b.ofInput (← Build.read v))
              discard (b.assign (k := k) (order.arrange values) start)) :=
            (Keeps.mapM fun v _ => (Keeps.read v).bind fun _ => .ofExcept _).bind fun _ =>
              (b.keeps_assign _ _).discard
          rw [assignCells]
          split
          · exact (Keeps.throw _).bind fun _ => hbits
          · exact hbits
      | decomposition _ | rangeCheck =>
          exact (keeps_readOne _ _).bind fun _ => (Keeps.ofExcept _).bind fun _ =>
            (b.keeps_assign _ _).discard

theorem keeps_gates (g : Gadget k) : Keeps g.gates := by
  cases g with
  | row kind l => exact (Keeps.addGate _).bind fun _ => .pure _
  | bits role b => exact b.keeps_gates

theorem keeps_enable (g : Gadget k) (selectors : List Nat) (start : Nat) :
    Keeps (g.enable selectors start) := by
  cases g with
  | row kind l => exact Keeps.forM fun _ _ => .enable _ _
  | bits role b => exact b.keeps_enable _ _

theorem keeps_assignConstants (g : Gadget k) (start : Nat) : Keeps (g.assignConstants start) := by
  unfold assignConstants
  split
  · exact .writeConstant _ _ _ _
  · exact .pure ()

theorem keeps_copies (g : Gadget k) (input : List Variable) (start : Nat) :
    Keeps (g.copies input start) := by
  cases g with
  | row kind l => exact RowKind.keeps_copyInputs _ _ _ _
  | bits role b =>
      cases role with
      | composition order =>
          exact (Keeps.ofFault _).bind fun _ => Keeps.forM fun c _ => .addCopy c.1 c.2
      | decomposition _ | rangeCheck =>
          refine (Keeps.ofFault _).bind fun _ => ?_
          unfold copyOne
          split
          · exact .addCopy _ _
          · exact .throw _

/-- The whole construction of a gadget keeps the gates and the copy constraints that there are, and
the selectors that are on. -/
theorem keeps_build (g : Gadget k) (input : List Variable) (start : Nat) :
    Keeps (g.build input start) :=
  g.keeps_gates.bind fun _ => (g.keeps_enable _ _).bind fun _ => (g.keeps_assignConstants _).bind
    fun _ => (g.keeps_copies _ _).bind fun _ => .ofFault _

/-- **Placing an instance** keeps what is there. -/
theorem keeps_synthesize (g : Gadget k) (input : List Variable) (start : Nat) :
    Keeps (g.synthesize input start) :=
  ((g.keeps_assignCells _ _).bind fun _ => .ofFault _).bind fun _ => g.keeps_build _ _

/-! ### What a call that answered has done -/

end Gadget

/-- A cell of the layout can be named only in a row below `2^31`. -/
theorem Layout.of_witnessCell {l : Layout} {i row : Nat} {v : Variable}
    (h : l.witnessCell i row = .ok v) : row < 2 ^ 31 ∧ v = l.cellVariable i row := by
  obtain ⟨column, hcolumn, habsolute⟩ := bind_eq_ok.mp h
  obtain ⟨hrow, rfl⟩ := Variable.absolute_eq_ok.mp habsolute
  obtain ⟨-, rfl⟩ := witnessAt_eq_ok.mp hcolumn
  exact ⟨hrow, rfl⟩

/-- The cell of a layout, read as a variable. -/
theorem Layout.tryValue_cellVariable {l : Layout} {i row : Nat} (hrow : row < 2 ^ 31) {t : Table k}
    {x : Felt k} : t.tryValue (l.cellVariable i row) = .ok x ↔
      t.Has (l.cell i row) ∧ t.cellAt (l.cell i row) = x := by
  have hrotation := l.toInt_rotation_cellVariable i hrow
  rw [Table.tryValue_eq_ok rfl, Table.valueAt, cellOf_cellVariable l i hrow]
  refine and_congr_left fun _ => ⟨fun h => ⟨h.index_lt, ?_⟩, fun h => ⟨rfl, h.index_lt, ?_, ?_⟩⟩
  · have hlt := h.row_lt
    rw [hrotation] at hlt
    exact_mod_cast hlt
  · rw [hrotation]
    exact Int.natCast_nonneg _
  · rw [hrotation]
    exact_mod_cast h.row_lt

/-- The cell of the sum can be named only when the rows end by `2^31`. -/
theorem BitRows.of_sumCell {b : BitRows} {v : Variable} (h : b.sumCell start = .ok v) :
    start + b.rows ≤ 2 ^ 31 ∧ v = b.layout.cellVariable b.sumColumn (start + b.rows - 1) := by
  obtain ⟨last, hlast, hcell⟩ := bind_eq_ok.mp h
  obtain ⟨-, rfl⟩ := Count.check_eq_ok.mp hlast
  obtain ⟨hrow, rfl⟩ := Layout.of_witnessCell hcell
  exact ⟨by omega, rfl⟩

/-- A selector that was switched on is on. -/
theorem Build.enabled_of_runs_enable {selector row : Nat} {r : Unit}
    (h : Runs (Build.enable selector row) a r a') : a'.table.enabled selector row = true := by
  obtain ⟨t, ht, rfl⟩ := exists_of_runs_enable h
  exact Table.enabled_of_tryEnable ht

/-- On each row of the block its own selector is on: the first row has the first selector, and all
others share the second one. -/
theorem BitRows.enabled_of_runs_enable {b : BitRows} {selectors : List Nat} {u : Unit}
    (h : Runs (b.enable selectors start) a u a') {r s : Nat} (hr : r < b.rows)
    (hs : selectors[min r 1]? = some s) : a'.table.enabled s (start + r) = true := by
  match selectors with
  | [] => cases hs
  | [first] =>
      obtain ⟨_, a₁, hfirst, hnone⟩ := runs_bind_iff.mp h
      obtain ⟨-, rfl⟩ := Build.runs_pure_iff.mp hnone
      cases r with
      | zero => exact Option.some.inj hs ▸ Build.enabled_of_runs_enable hfirst
      | succ r =>
          rw [Nat.min_eq_right (Nat.le_add_left 1 r)] at hs
          cases hs
  | first :: next :: others =>
      obtain ⟨_, a₁, hfirst, hothers⟩ := runs_bind_iff.mp h
      obtain ⟨second, hsecond, hothers⟩ := runs_ofFault_bind_iff.mp hothers
      obtain ⟨last, hlast, hrange⟩ := runs_ofFault_bind_iff.mp hothers
      obtain ⟨-, rfl⟩ := Count.check_eq_ok.mp hsecond
      obtain ⟨-, rfl⟩ := Count.check_eq_ok.mp hlast
      obtain ⟨t, ht, rfl⟩ := Build.exists_of_runs_enableRange hrange
      obtain ⟨hgains, hrows⟩ := Table.gains_of_enableEach ht
      cases r with
      | zero => exact Option.some.inj hs ▸ hgains.enabled (Build.enabled_of_runs_enable hfirst)
      | succ r =>
          rw [Nat.min_eq_right (Nat.le_add_left 1 r)] at hs
          obtain rfl : next = s := Option.some.inj hs
          have hrow : start + 1 ≤ start + (r + 1) ∧ start + (r + 1) ≤ start + b.rows - 1 := by omega
          exact (hrows _ (Table.mem_rangeRows (fun r hr => (hrows r hr).1) hrow.1 hrow.2)).2

/-- Every copy constraint of a run over a list is in the circuit afterwards. By induction on the
list. -/
theorem copied_of_runs_forM {l : List (Variable × Variable)} {r : Unit}
    (h : Runs (l.forM fun c => Build.addCopy c.1 c.2) a r a') :
    ∀ c ∈ l, ⟨c.1, c.2⟩ ∈ a'.circuit.copies := by
  induction l generalizing a with
  | nil => exact nofun
  | cons c l ih =>
      obtain ⟨_, a₁, hadd, hothers⟩ := runs_bind_iff.mp h
      refine List.forall_mem_cons.mpr ⟨?_, ih hothers⟩
      obtain rfl := Build.eq_of_runs_addCopy hadd
      exact ((Keeps.forM fun d _ => Keeps.addCopy d.1 d.2) hothers).copies Array.mem_push_self

/-- Every input is tied to its cell of the row. -/
theorem RowKind.copied_of_runs_copyInputs {l : Layout} {row i : Nat} {r : Unit}
    (h : Runs (copyInputs l row i input) a r a') :
    ∀ c ∈ input.zip ((List.range' i input.length).map fun j => l.cellVariable j row),
      ⟨c.1, c.2⟩ ∈ a'.circuit.copies := by
  induction input generalizing a i with
  | nil => exact nofun
  | cons v input ih =>
      obtain ⟨cell, hcell, hothers⟩ := runs_ofFault_bind_iff.mp h
      obtain ⟨_, a₁, hadd, hothers⟩ := runs_bind_iff.mp hothers
      obtain ⟨-, rfl⟩ := Layout.of_witnessCell hcell
      obtain rfl := Build.eq_of_runs_addCopy hadd
      refine List.forall_mem_cons.mpr ⟨?_, ih hothers⟩
      exact (RowKind.keeps_copyInputs _ _ _ _ hothers).copies Array.mem_push_self

theorem RowKind.results_ne_nil (kind : RowKind k) : kind.results ≠ [] := by
  cases kind <;> exact List.cons_ne_nil _ _

theorem RowKind.width_pos (kind : RowKind k) : 0 < kind.width := by
  obtain ⟨i, others, hresults⟩ := List.exists_cons_of_ne_nil kind.results_ne_nil
  exact Nat.zero_lt_of_lt (results_lt (hresults ▸ List.mem_cons_self))

namespace Gadget

variable {g : Gadget k}

/-- A gadget of one input takes exactly one, and ties it to its cell. -/
theorem runs_copyOne_iff {name : String} {cell : Variable} {r : Unit} :
    Runs (copyOne name input cell) a r a' ↔
      ∃ v, input = [v] ∧ Runs (Build.addCopy v cell) a r a' := by
  unfold copyOne
  split
  · next v => exact ⟨fun h => ⟨v, rfl, h⟩, fun ⟨w, hw, h⟩ => (List.singleton_inj.mp hw) ▸ h⟩
  · next hne => exact iff_of_false Build.not_runs_throw fun ⟨v, hv, _⟩ => hne v hv

/-- The last row of an instance whose cells could be named is not too large for a rotation. -/
theorem rows_le_of_runs {r : Unit} (hcopies : Runs (g.copies input start) a r a')
    (hresult : g.result start = .ok outs) : start + g.rows ≤ 2 ^ 31 := by
  cases g with
  | row kind l =>
      obtain ⟨i, others, hresults⟩ := List.exists_cons_of_ne_nil kind.results_ne_nil
      rw [result, hresults, mapM_eq_ok] at hresult
      obtain ⟨v, outs, hcell, -, rfl⟩ := List.forall₂_cons_left_iff.mp hresult
      exact Nat.succ_le_of_lt (Layout.of_witnessCell hcell).1
  | bits role b =>
      cases role with
      | composition order =>
          obtain ⟨v, hcell, -⟩ := bind_eq_ok.mp hresult
          exact (BitRows.of_sumCell hcell).1
      | decomposition _ | rangeCheck =>
          obtain ⟨v, hcell, -⟩ := runs_ofFault_bind_iff.mp hcopies
          exact (BitRows.of_sumCell hcell).1

theorem enabled_of_runs_enable {selectors : List Nat} {u : Unit}
    (h : Runs (g.enable selectors start) a u a') {r s : Nat} (hr : r < g.rows)
    (hs : selectors[min r 1]? = some s) : a'.table.enabled s (start + r) = true := by
  cases g with
  | row kind l =>
      obtain rfl := Nat.lt_one_iff.mp hr
      match selectors with
      | [] => cases hs
      | first :: others =>
          obtain ⟨_, a₁, hfirst, hothers⟩ := runs_bind_iff.mp h
          obtain rfl : first = s := Option.some.inj hs
          exact ((Keeps.forM fun _ _ => .enable _ _) hothers).enabled
            (Build.enabled_of_runs_enable hfirst)
  | bits role b => exact BitRows.enabled_of_runs_enable h hr hs

/-- Every copy constraint of the gadget is in the circuit afterwards. -/
theorem copied_of_runs_copies {r : Unit} (hrows : start + g.rows ≤ 2 ^ 31)
    (hlen : input.length = (g.inputCells start).length) (h : Runs (g.copies input start) a r a') :
    ∀ copy ∈ g.copyPairs input start, copy ∈ a'.circuit.copies := by
  rw [copyPairs, List.forall_mem_map]
  cases g with
  | row kind l =>
      rw [inputCells, List.length_map, List.length_range'] at hlen
      rw [inputCells, ← hlen]
      exact RowKind.copied_of_runs_copyInputs h
  | bits role b =>
      cases role with
      | composition order =>
          obtain ⟨cells, hcells, hcopies⟩ := runs_ofFault_bind_iff.mp h
          obtain rfl := Except.ok.inj ((BitRows.cells_eq hrows).symm.trans hcells)
          exact copied_of_runs_forM hcopies
      | decomposition _ | rangeCheck =>
          obtain ⟨cell, hcell, hcopies⟩ := runs_ofFault_bind_iff.mp h
          obtain ⟨-, rfl⟩ := BitRows.of_sumCell hcell
          obtain ⟨v, rfl, hadd⟩ := runs_copyOne_iff.mp hcopies
          obtain rfl := Build.eq_of_runs_addCopy hadd
          exact List.forall_mem_singleton.mpr Array.mem_push_self

/-- The number of inputs is checked before anything is written. -/
theorem length_of_runs_assignCells {r : Unit} (h : Runs (g.assignCells input start) a r a') :
    input.length = (g.inputCells start).length := by
  cases g with
  | row kind l =>
      rw [inputCells, List.length_map, List.length_range']
      by_contra hne
      rw [assignCells, RowKind.assign, if_pos hne] at h
      obtain ⟨_, _, hthrow, -⟩ := runs_bind_iff.mp h
      exact Build.not_runs_throw hthrow
  | bits role b =>
      cases role with
      | composition order =>
          rw [inputCells, BitOrder.length_arrange, BitRows.bitVariables, List.length_map,
            List.length_range']
          by_contra hne
          rw [assignCells, if_pos hne] at h
          obtain ⟨_, _, hthrow, -⟩ := runs_bind_iff.mp h
          exact Build.not_runs_throw hthrow
      | decomposition _ | rangeCheck =>
          obtain ⟨_, _, hread, -⟩ := runs_bind_iff.mp h
          unfold readOne at hread
          split at hread
          · rfl
          · exact absurd hread Build.not_runs_throw

/-! ### Installed instances -/

/-- An assembly asks for an instance of a gadget. -/
structure Installed (g : Gadget k) (a : Assembly k) (input : List Variable) (start : Nat) :
    Prop where
  /-- There is a cell for each input. -/
  length_eq : input.length = (g.inputCells start).length
  /-- The rows are not too large for a rotation. -/
  rows_le : start + g.rows ≤ 2 ^ 31
  /-- In each row, the gate of the row is enabled. -/
  enabled {r : Nat} {constraints : List (Expr k)} : r < g.rows →
    g.constraintLists[min r 1]? = some constraints →
      ∃ gate ∈ a.circuit.gates, gate.constraints == constraints ∧
        a.table.enabled gate.selector (start + r) = true
  /-- The inputs are copied. -/
  copied : ∀ copy ∈ g.copyPairs input start, copy ∈ a.circuit.copies

/-- What is installed stays installed as the circuit grows. -/
theorem Installed.mono {b : Assembly k} (h : g.Installed a input start) (hkept : a.KeptIn b) :
    g.Installed b input start where
  length_eq := h.length_eq
  rows_le := h.rows_le
  enabled hr hgate := by
    obtain ⟨gate, hmem, hsame, henabled⟩ := h.enabled hr hgate
    exact ⟨gate, hkept.gates hmem, hsame, hkept.enabled henabled⟩
  copied copy hcopy := hkept.copies (h.copied copy hcopy)

/-- **A call that adds an instance** to the circuit, and answers, has installed it. -/
theorem installed_of_build (hmade : g.Made) (hreg : a.circuit.Registered)
    (hlen : input.length = (g.inputCells start).length) (h : Runs (g.build input start) a outs a') :
    g.Installed a' input start ∧ outs = g.outputCells start := by
  obtain ⟨selectors, a₁, hgates, h⟩ := runs_bind_iff.mp h
  obtain ⟨rfl, rfl⟩ := (runs_gates g a).unique hgates
  obtain ⟨_, a₂, henable, h⟩ := runs_bind_iff.mp h
  obtain ⟨_, a₃, hconstants, h⟩ := runs_bind_iff.mp h
  obtain ⟨_, a₄, hcopies, h⟩ := runs_bind_iff.mp h
  obtain ⟨hresult, rfl⟩ := Build.runs_ofFault_iff.mp h
  obtain ⟨hreg', -, hleads⟩ := hreg.addGates g.constraintLists
  have hrows := rows_le_of_runs hcopies hresult
  have hlater := (g.keeps_assignConstants _ hconstants).trans (g.keeps_copies _ _ hcopies)
  refine ⟨⟨hlen, hrows, ?_, copied_of_runs_copies hrows hlen hcopies⟩,
    Except.ok.inj (hresult.symm.trans (result_eq hmade hrows))⟩
  intro r constraints hr hgate
  obtain ⟨hi, rfl⟩ := List.getElem?_eq_some_iff.mp hgate
  have hi' : min r 1 < (a.circuit.addGates g.constraintLists).1.length := hleads.length_eq ▸ hi
  obtain ⟨gate, hplace, hsame⟩ := hleads.get hi hi'
  refine ⟨gate, ?_, hsame, hlater.enabled ?_⟩
  · exact ((g.keeps_enable _ _ henable).trans hlater).gates (Array.mem_of_getElem? hplace)
  · rw [hreg'.selector_eq hplace]
    exact enabled_of_runs_enable henable hr (List.getElem?_eq_getElem hi')

/-- **A call that places an instance**, and answers, has installed it. -/
theorem installed_of_synthesize (hmade : g.Made) (hreg : a.circuit.Registered)
    (h : Runs (g.synthesize input start) a outs a') :
    g.Installed a' input start ∧ outs = g.outputCells start := by
  obtain ⟨_, a₁, hassign, hbuild⟩ := runs_bind_iff.mp h
  obtain ⟨_, a₂, hcells, hresult⟩ := runs_bind_iff.mp hassign
  obtain ⟨-, rfl⟩ := Build.runs_ofFault_iff.mp hresult
  have hreg' := (g.keeps_assignCells _ _ hcells).registered hreg
  exact installed_of_build hmade hreg' (length_of_runs_assignCells hcells) hbuild

/-! ### Enforced instances -/

/-- A table does what an instance of a gadget asks for. -/
structure Enforced (g : Gadget k) (t : Table k) (input : List Variable) (start : Nat) : Prop where
  /-- There is a cell for each input. -/
  length_eq : input.length = (g.inputCells start).length
  /-- The rows are not too large for a rotation. -/
  rows_le : start + g.rows ≤ 2 ^ 31
  /-- The rows exist. -/
  exist : start + g.rows ≤ t.rows
  /-- The constraints of each row read cells that exist. -/
  reads {r : Nat} {constraints : List (Expr k)} : r < g.rows →
    g.constraintLists[min r 1]? = some constraints →
      ∀ e ∈ constraints, e.Within fun v => t.Has (v.cellOf t.rows (start + r))
  /-- The constraints of each row vanish. -/
  vanish {r : Nat} {constraints : List (Expr k)} : r < g.rows →
    g.constraintLists[min r 1]? = some constraints →
      ∀ e ∈ constraints, e.value (t.valueAt (start + r)) = 0
  /-- The cells that the inputs are copied to hold the inputs. -/
  copied : ∀ copy ∈ g.copyPairs input start,
    ∃ x, t.tryValue copy.first = .ok x ∧ t.tryValue copy.second = .ok x

/-- Every row has its list of constraints. -/
theorem exists_constraints {r : Nat} (hr : r < g.rows) :
    ∃ constraints, g.constraintLists[min r 1]? = some constraints := by
  cases g with
  | row kind l =>
      obtain rfl := Nat.lt_one_iff.mp hr
      exact ⟨_, rfl⟩
  | bits role b => exact ⟨_, getElem?_constraintLists_bits hr⟩

/-- **An accepted table** does what the instances in it ask for. -/
theorem Installed.enforced (h : g.Installed a input start) (hheld : a.table.Held)
    (haccepted : a.circuit.violations a.table = .ok []) : g.Enforced a.table input start := by
  have hmet := Circuit.violations_eq_nil_iff.mp haccepted
  have hconstraint : ∀ {r : Nat} {constraints : List (Expr k)}, r < g.rows →
      g.constraintLists[min r 1]? = some constraints → ∀ e ∈ constraints,
        e.Within (fun v => a.table.Has (v.cellOf a.table.rows (start + r))) ∧
          e.value (a.table.valueAt (start + r)) = 0 := by
    intro r constraints hr hgate e he
    obtain ⟨gate, hmem, hsame, henabled⟩ := h.enabled hr hgate
    -- The gate that was found by the constraints has ones with the same variables and values.
    obtain ⟨e', he', hsame'⟩ := Gate.exists_same_of_mem hsame he
    obtain ⟨hreads, hzero⟩ := Expr.tryAtRow_eq_ok hheld (Table.lt_of_enabled henabled).2
      (hmet.vanish hmem _ henabled e' he')
    rw [Expr.scalar_eq_of_same hsame',
      Expr.scalar_eq_zero_iff (constraints_proper (List.mem_of_getElem? hgate) e he)] at hzero
    rw [Expr.Within, ← Expr.occurrences_eq_of_same hsame']
    exact ⟨hreads, hzero⟩
  refine ⟨h.length_eq, h.rows_le, ?_, fun hr hgate e he => (hconstraint hr hgate e he).1,
    fun hr hgate e he => (hconstraint hr hgate e he).2,
    fun copy hcopy => hmet.copied (h.copied copy hcopy)⟩
  have hlast : g.rows - 1 < g.rows := Nat.sub_lt g.rows_pos Nat.one_pos
  obtain ⟨constraints, hgate⟩ := exists_constraints hlast
  obtain ⟨gate, -, -, henabled⟩ := h.enabled hlast hgate
  have hexists := (Table.lt_of_enabled henabled).2
  omega

/-- **An accepted table** does what an instance asks for that was added to the circuit at some time.
-/
theorem enforced_of_build {b : Assembly k} (hmade : g.Made) (hreg : a.circuit.Registered)
    (hlen : input.length = (g.inputCells start).length) (h : Runs (g.build input start) a outs a')
    (hkept : a'.KeptIn b) (hheld : b.table.Held)
    (haccepted : b.circuit.violations b.table = .ok []) :
    g.Enforced b.table input start ∧ outs = g.outputCells start := by
  obtain ⟨hinstalled, houts⟩ := installed_of_build hmade hreg hlen h
  exact ⟨(hinstalled.mono hkept).enforced hheld haccepted, houts⟩

/-- The cells that the inputs are copied to, input by input. -/
theorem Enforced.forall₂_copied {t : Table k} (h : g.Enforced t input start) :
    List.Forall₂ (fun v w => ∃ x, t.tryValue v = .ok x ∧ t.tryValue w = .ok x) input
      (g.inputCells start) := by
  refine List.forall₂_iff_zip.mpr ⟨h.length_eq, ?_⟩
  intro v w hpair
  exact h.copied ⟨v, w⟩ (List.mem_map.mpr ⟨(v, w), hpair, rfl⟩)

/-- The inputs have values. -/
theorem Enforced.exists_value {t : Table k} (h : g.Enforced t input start) {v : Variable}
    (hv : v ∈ input) : ∃ x, t.tryValue v = .ok x := by
  rw [← List.map_fst_zip h.length_eq.le] at hv
  obtain ⟨⟨v, w⟩, hpair, rfl⟩ := List.mem_map.mp hv
  obtain ⟨x, hx, -⟩ := h.copied ⟨v, w⟩ (List.mem_map.mpr ⟨(v, w), hpair, rfl⟩)
  exact ⟨x, hx⟩

/-- The cells that the inputs are copied to hold the values of the inputs. -/
theorem Enforced.mapM_inputCells {t : Table k} (h : g.Enforced t input start)
    {values : List (Felt k)} (hvalues : input.mapM t.tryValue = .ok values) :
    (g.inputCells start).mapM t.tryValue = .ok values :=
  mapM_eq_ok_of_forall₂ h.forall₂_copied hvalues

end Gadget

end Plonkish
