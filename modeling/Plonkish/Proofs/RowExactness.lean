import Plonkish.Proofs.RowSoundness

/-!
# Proofs — rows that keep the constraints are computed

A row is *computed* by a gadget if its cells are those that the gadget would write there for the
inputs among them (`RowKind.ComputedIn`).  The constraints of a gadget hold in the computed rows and
in no others, sums of points apart.

* `RowKind.vanish_iff`: the constraints vanish exactly if the values of the columns are the cells
  that are computed from the first ones, where a logic operation has bits for inputs.
* `RowKind.exists_reads_of_lt`: each column of the gadget is read by some constraint, so constraints
  that have a value also say that the cells exist.
* `RowKind.vanish_iff_computedIn`: both together, for the rows of a table that nothing is known of.
  No row divides by zero, and the division by zero that has a result has no other than zero.
-/

namespace Plonkish

variable {k : BaseField} {valuation : Variable → Felt k} {w c : Nat → Expr k}

/-! ### Values of the columns -/

/-- A list of values of columns is taken by the columns. -/
theorem takes_range (w : Nat → Expr k) (valuation : Variable → Felt k) (n : Nat) :
    Takes w valuation ((List.range n).map fun i => (w i).value valuation) := by
  intro i a h
  rw [List.getElem?_map, Option.map_eq_some_iff] at h
  obtain ⟨j, hj, rfl⟩ := h
  obtain ⟨-, rfl⟩ := List.getElem?_eq_some_iff.mp hj
  rw [List.getElem_range]

/-- Expressions with given values: the constants. -/
theorem takes_constant (valuation : Variable → Felt k) (cells : List (Felt k)) :
    Takes (fun i => .constant (cells.getD i 0)) valuation cells := by
  intro i a h
  rw [Expr.value_constant, List.getD_eq_getElem?_getD, h]
  rfl

/-- The divisor of a division is not zero. -/
theorem Arithmetic.ne_zero_of_cells {op : Arithmetic} {x y : Felt k} {rest : List (Felt k)}
    (h : op.cells x y = .ok rest) (hop : op = .division) : y ≠ 0 := by
  subst hop
  intro hzero
  rw [cells, Felt.inverse?, if_pos hzero] at h
  cases h

/-- **The result of bits** is the only value that the equation of an operation leaves. -/
theorem Logic.result_of_vanishes {op : Logic}
    (hbits : ∀ i < op.arity, ((w i).value valuation).IsBit)
    (h : (op.equation w).value valuation = 0) :
    op.result ((List.range op.arity).map fun i => (w i).value valuation) =
      .ok ((w op.arity).value valuation) := by
  set inputs := (List.range op.arity).map fun i => (w i).value valuation with hinputs
  have hlen : inputs.length = op.arity := by rw [hinputs, List.length_map, List.length_range]
  have hbits' : ∀ a ∈ inputs, a.IsBit :=
    List.forall_mem_map.mpr fun i hi => hbits i (List.mem_range.mp hi)
  obtain ⟨r, hr⟩ := op.exists_result hlen
  -- Both the columns and the constants with the computed cells for values keep the equation.
  have hvanish := equation_vanishes hlen hbits' hr (takes_constant valuation (inputs ++ [r]))
  have hsame : (w op.arity).value valuation = r := by
    refine (determined h hvanish fun i hi => ?_).trans (takes_constant valuation _ op.arity r ?_)
    · refine (takes_constant valuation (inputs ++ [r]) i _ ?_).symm
      rw [List.getElem?_append_left (hlen.symm ▸ hi), hinputs, List.getElem?_map,
        List.getElem?_range hi]
      rfl
    · rw [← hlen, List.getElem?_concat_length]
  rw [hr, hsame]

namespace RowKind

variable {kind : RowKind k} {inputs cells : List (Felt k)}

/-- A gadget that computes cells admits the inputs. -/
theorem admits_of_cells (hkind : kind ≠ points) (hlen : inputs.length = kind.arity)
    (h : kind.cells inputs = .ok cells) : kind.Admits inputs := by
  cases kind with
  | arithmetic op =>
      obtain ⟨x, y, rfl⟩ := List.length_eq_two.mp hlen
      obtain ⟨rest, hrest, -⟩ := bind_pure_eq_ok.mp h
      exact ⟨x, y, rfl, Arithmetic.ne_zero_of_cells (mapError_eq_ok.mp hrest)⟩
  | scaling factor => exact hlen
  | logic op =>
      refine ⟨hlen, fun a ha => ?_⟩
      rw [RowKind.cells] at h
      split at h
      · cases h
      · next hfind =>
          by_contra hbit
          obtain ⟨hzero, hone⟩ := not_or.mp hbit
          exact List.find?_eq_none.mp hfind a ha (decide_eq_true ⟨hzero, hone⟩)
  | points => exact absurd rfl hkind

/-- **The constraints vanish** exactly if the columns have the values that are computed from the
first of them. -/
theorem vanish_iff (hkind : kind ≠ points)
    (hc : ∀ factor, kind = scaling factor → (c 0).value valuation = factor)
    (hbits : ∀ op, kind = logic op → ∀ i < op.arity, ((w i).value valuation).IsBit) :
    (∀ e ∈ kind.constraints w c, e.value valuation = 0) ↔
      kind.cells ((List.range kind.arity).map fun i => (w i).value valuation) =
        .ok ((List.range kind.width).map fun i => (w i).value valuation) := by
  constructor
  · intro h
    cases kind with
    | arithmetic op =>
        have hcells := Arithmetic.cells_eq_of_vanish h
        show (do return _ :: _ :: (← (op.cells _ _).mapError _)) = _
        rw [hcells]
        cases op <;> rfl
    | scaling factor =>
        rw [constraints, List.forall_mem_singleton, Expr.value_sub, Expr.value_mul, hc factor rfl,
          sub_eq_zero] at h
        show Except.ok [_, _ * factor] = _
        rw [h]
        rfl
    | logic op =>
        rw [constraints, List.forall_mem_singleton] at h
        have hmem : ∀ a ∈ (List.range op.arity).map fun i => (w i).value valuation, a.IsBit :=
          List.forall_mem_map.mpr fun i hi => hbits op rfl i (List.mem_range.mp hi)
        show (logic op).cells ((List.range op.arity).map fun i => (w i).value valuation) =
          .ok ((List.range (op.arity + 1)).map fun i => (w i).value valuation)
        rw [cells_logic hmem (Logic.result_of_vanishes (hbits op rfl) h), List.range_succ,
          List.map_append, List.map_singleton]
    | points => exact absurd rfl hkind
  · intro h
    have hlen : ((List.range kind.arity).map fun i => (w i).value valuation).length =
        kind.arity := by
      rw [List.length_map, List.length_range]
    exact constraints_vanish (admits_of_cells hkind hlen h) h
      (takes_range w valuation kind.width) hc

end RowKind

/-! ### Columns that the constraints read -/

section Reads

variable {v u : Nat → Variable} {i : Nat}

theorem Arithmetic.exists_reads {op : Arithmetic} (hi : i < op.width) :
    ∃ e ∈ op.constraints fun j => (v j : Expr k), v i ∈ e.occurrences := by
  cases op with
  | addition | subtraction | multiplication =>
      replace hi : i < 3 := hi
      refine ⟨_, List.mem_cons_self, ?_⟩
      interval_cases i <;> simp [Expr.occurrences_add, Expr.occurrences_mul]
  | division =>
      replace hi : i < 4 := hi
      interval_cases i <;> simp [constraints, Expr.occurrences_mul]
  | divisionOrZero =>
      replace hi : i < 4 := hi
      have hdivisor : ∀ e : Expr k, ((v 1 : Expr k) * (e - .constant 1)).occurrences =
          v 1 :: (e - .constant 1).occurrences := fun e => by
        rw [Expr.occurrences_mul (Expr.isEmpty_variable _) (Expr.isEmpty_sub _ _),
          Expr.occurrences_variable, List.singleton_append]
      interval_cases i <;> simp [constraints, Expr.occurrences_mul, hdivisor]

theorem Logic.reads {op : Logic} (hi : i < op.arity + 1) :
    v i ∈ (op.equation fun j => (v j : Expr k)).occurrences := by
  cases op with
  | not =>
      replace hi : i < 2 := hi
      interval_cases i <;> simp [equation]
  | select =>
      replace hi : i < 4 := hi
      have hnot := Expr.isEmpty_sub (.constant 1) (v 0 : Expr k)
      have hsecond := Expr.isEmpty_mul (Expr.isEmpty_variable (k := k) (v 0))
        (Expr.isEmpty_variable (v 1))
      have hthird := Expr.isEmpty_mul hnot (Expr.isEmpty_variable (v 2))
      rw [equation, Expr.occurrences_sub, Expr.occurrences_add hsecond hthird,
        Expr.occurrences_mul (by simp) (by simp), Expr.occurrences_mul hnot (by simp)]
      interval_cases i <;> simp
  | and | or | xor | nand | nor =>
      replace hi : i < 3 := hi
      interval_cases i <;>
        simp [equation, disjunction, Expr.occurrences_mul, Expr.occurrences_add]

/-- Each column is read by some constraint. -/
theorem RowKind.exists_reads_of_lt {kind : RowKind k} (hkind : kind ≠ points)
    (hi : i < kind.width) :
    ∃ e ∈ kind.constraints (fun j => (v j : Expr k)) (fun j => (u j : Expr k)),
      v i ∈ e.occurrences := by
  cases kind with
  | arithmetic op => exact Arithmetic.exists_reads hi
  | scaling factor =>
      replace hi : i < 2 := hi
      refine ⟨_, List.mem_cons_self, ?_⟩
      interval_cases i <;> simp [Expr.occurrences_mul]
  | logic op => exact ⟨_, List.mem_cons_self, Logic.reads hi⟩
  | points => exact absurd rfl hkind

end Reads

/-! ### Rows of a table -/

namespace RowKind

variable {t : Table k} {kind : RowKind k} {l : Layout} {row : Nat} {cells : List (Felt k)}

/-- What a row holds in the columns of a gadget, if these exist. -/
def cellsIn (kind : RowKind k) (l : Layout) (t : Table k) (row : Nat) :
    Except TableError (List (Felt k)) :=
  (l.witness.take kind.width).mapM fun column => t.tryGet .witness column.toNat row

/-- The cells of a row are the ones that a gadget computes from the inputs among them. -/
def ComputedIn (kind : RowKind k) (l : Layout) (t : Table k) (row : Nat) : Prop :=
  ∃ cells, kind.cellsIn l t row = .ok cells ∧ kind.cells (cells.take kind.arity) = .ok cells

theorem cellsIn_eq_ok (hwidth : kind.width ≤ l.witness.length) :
    kind.cellsIn l t row = .ok cells ↔ (∀ i < kind.width, t.Has (l.cell i row)) ∧
      (List.range kind.width).map (fun i => t.cellAt (l.cell i row)) = cells := by
  have hcolumns : l.witness.take kind.width = (List.range kind.width).map fun i =>
      l.witness.getD i 0 := by
    refine List.ext_getElem (by simp [hwidth]) fun i hi _ => ?_
    rw [List.length_take, lt_min_iff] at hi
    rw [List.getElem_take, List.getElem_map, List.getElem_range, List.getD_eq_getElem _ _ hi.2]
  rw [cellsIn, hcolumns, List.mapM_map, mapM_eq_ok]
  simp only [Function.comp_apply, Table.tryGet_eq_ok, List.forall₂_and_left, List.mem_range]
  rw [← List.forall₂_eq_eq_eq, List.forall₂_map_left_iff]
  rfl

/-- **Constraints that vanish** also read cells that exist. -/
theorem tryAtRow_eq_zero_iff (hkind : kind ≠ points) (hheld : t.Held) (hrow : row < t.rows)
    (hconstants : ∀ i < kind.constantWidth, (l.constant.getD i 0).toNat < t.width .constant) :
    (∀ e ∈ kind.constraintsOn l, e.tryAtRow t row = .ok 0) ↔
      (∀ i < kind.width, t.Has (l.cell i row)) ∧
        ∀ e ∈ kind.constraintsOn l, e.value (t.valueAt row) = 0 := by
  have hproper : ∀ e ∈ kind.constraintsOn l, e.Proper :=
    Gadget.constraints_proper (g := .row kind l) List.mem_cons_self
  constructor
  · intro h
    have hread := fun e he => Expr.tryAtRow_eq_ok hheld hrow (h e he)
    refine ⟨fun i hi => ?_, fun e he => (Expr.scalar_eq_zero_iff (hproper e he)).mp (hread e he).2⟩
    obtain ⟨e, he, hv⟩ := exists_reads_of_lt hkind hi
    have hcell : t.Has ((Variable.relativeTo .witness (l.witness.getD i 0) 0).cellOf t.rows row) :=
      (hread e he).1 _ hv
    rwa [Variable.cellOf, Variable.rowOf_relativeTo_zero _ _ hrow] at hcell
  · rintro ⟨hcells, h⟩ e he
    have hrows : t.rows ≤ 2 ^ 62 :=
      hheld.rows_le (Nat.zero_lt_of_lt (hcells 0 kind.width_pos).index_lt)
    have hholds : ∀ e ∈ kind.constraintsOn l, e.Within t.Holds :=
      constraints_closed (Expr.closed_within _)
        (fun i hi => Expr.within_variable (Table.HoldsRelative.holds ⟨rfl, (hcells i hi).index_lt⟩))
        (fun i hi => Expr.within_variable (Table.HoldsRelative.holds ⟨rfl, hconstants i hi⟩))
    rw [Expr.tryAtRow_eq (hholds e he) hrow hrows,
      (Expr.scalar_eq_zero_iff (hproper e he)).mpr (h e he)]

/-- A row that divides by zero is not computed, and one that may is zero from the result on. -/
theorem cells_of_zero_divisor (hcells : kind.cells (cells.take kind.arity) = .ok cells)
    (hzero : cells[1]? = some 0) :
    kind ≠ arithmetic .division ∧ (kind = arithmetic .divisionOrZero → cells.drop 2 = [0, 0]) := by
  match cells with
  | [] | [x] => cases hzero
  | x :: y :: rest =>
      obtain rfl : y = 0 := Option.some.inj hzero
      have hrest : ∀ op, kind = arithmetic op → op.cells x 0 = .ok rest := by
        rintro op rfl
        obtain ⟨rest', hrest, hsame⟩ := bind_pure_eq_ok.mp hcells
        obtain rfl := (List.cons.inj (List.cons.inj hsame).2).2
        exact mapError_eq_ok.mp hrest
      refine ⟨fun h => Arithmetic.ne_zero_of_cells (hrest _ h) rfl rfl, fun h => ?_⟩
      have hcomputed := hrest _ h
      rw [Arithmetic.cells, Felt.inverse_eq_inv, inv_zero, mul_zero] at hcomputed
      exact (Except.ok.inj hcomputed).symm

/-- **The constraints hold of the computed rows and of no others**, where the constant is in its
cell and a logic operation has bits for inputs.  No row divides by zero; the result of a division or
zero and the inverse that it uses are zero where the divisor is. -/
theorem vanish_iff_computedIn {g : Gadget k} (hg : Gadget.ofRow kind l = .ok g)
    (hkind : kind ≠ points) (hheld : t.Held) (hrow : row < t.rows)
    (hconstant : ∀ factor, kind = scaling factor → ∀ column, l.constant[0]? = some column →
      t.tryGet .constant column.toNat row = .ok factor)
    (hbits : ∀ op, kind = logic op → ∀ cells, kind.cellsIn l t row = .ok cells →
      ∀ x ∈ cells.take op.arity, x.IsBit) :
    ((∀ e ∈ kind.constraintsOn l, e.tryAtRow t row = .ok 0) ↔ kind.ComputedIn l t row) ∧
      ∀ cells, kind.cellsIn l t row = .ok cells → cells[1]? = some 0 →
        (∀ e ∈ kind.constraintsOn l, e.tryAtRow t row = .ok 0) →
          kind ≠ arithmetic .division ∧
            (kind = arithmetic .divisionOrZero → cells.drop 2 = [0, 0]) := by
  obtain rfl := Gadget.eq_of_ofRow hg
  obtain ⟨hwidth, hconstantWidth⟩ := Gadget.made_of_ofRow hg
  -- The constant column exists, with the constant in it.
  have hcolumn : ∀ factor, kind = scaling factor →
      t.tryGet .constant (l.constant.getD 0 0).toNat row = .ok factor := by
    rintro factor rfl
    refine hconstant factor rfl _ ?_
    rw [List.getD_eq_getElem _ _ hconstantWidth, List.getElem?_eq_getElem hconstantWidth]
  have hconstants : ∀ i < kind.constantWidth, (l.constant.getD i 0).toNat < t.width .constant := by
    intro i hi
    cases kind with
    | scaling factor =>
        obtain rfl := Nat.lt_one_iff.mp hi
        exact (Table.tryGet_eq_ok.mp (hcolumn factor rfl)).1.index_lt
    | arithmetic op | logic op | points => exact absurd hi (Nat.not_lt_zero i)
  have hc : ∀ factor, kind = scaling factor →
      (Variable.relativeTo .constant (l.constant.getD 0 0) 0 : Expr k).value
        (t.valueAt row) = factor :=
    fun factor h => (l.value_constant 0 hrow).trans (Table.tryGet_eq_ok.mp (hcolumn factor h)).2
  have hexact : (∀ e ∈ kind.constraintsOn l, e.tryAtRow t row = .ok 0) ↔
      kind.ComputedIn l t row := by
    rw [tryAtRow_eq_zero_iff hkind hheld hrow hconstants, ComputedIn]
    simp only [cellsIn_eq_ok hwidth, and_assoc, exists_and_left, exists_eq_left']
    refine and_congr_right fun hcells => ?_
    have hinputs : ((List.range kind.width).map fun i => t.cellAt (l.cell i row)).take kind.arity =
        (List.range kind.arity).map fun i => t.cellAt (l.cell i row) := by
      rw [← List.map_take, List.take_range, min_eq_left kind.arity_le_width]
    have hbits' : ∀ op, kind = logic op → ∀ i < op.arity, (t.cellAt (l.cell i row)).IsBit := by
      rintro op rfl i hi
      refine hbits op rfl _ ((cellsIn_eq_ok hwidth).mpr ⟨hcells, rfl⟩) _ ?_
      exact hinputs ▸ List.mem_map.mpr ⟨i, List.mem_range.mpr hi, rfl⟩
    rw [hinputs]
    have hiff := vanish_iff
      (w := fun i => (Variable.relativeTo .witness (l.witness.getD i 0) 0 : Expr k))
      (c := fun i => (Variable.relativeTo .constant (l.constant.getD i 0) 0 : Expr k)) hkind hc
      fun op h i hi => (l.value_witness i hrow).symm ▸ hbits' op h i hi
    simp only [l.value_witness _ hrow] at hiff
    exact hiff
  refine ⟨hexact, fun cells hcells hzero h => ?_⟩
  obtain ⟨cells', hcells', hcomputed⟩ := hexact.mp h
  obtain rfl := Except.ok.inj (hcells'.symm.trans hcells)
  exact cells_of_zero_divisor hcomputed hzero

end RowKind

/-! ### A quotient -/

/-- A table of one row, which divides six by two. -/
def Table.quotient : Table .babyBear where
  rows := 1
  usableRows := 1
  regions :=
    { witness := ⟨1, 4, #[.ofNat 6, .ofNat 2, .ofNat 3, .ofNat 1006632961], rfl⟩
      publicInput := .zero _ 1 0
      constant := .zero _ 1 0
      selector := .zero _ 1 0 }
  height_eq kind := by cases kind <;> rfl

theorem RowKind.vanish_iff_computedIn_quotient :
    (∀ e ∈ (arithmetic .division).constraintsOn (.contiguous 4 0),
      e.tryAtRow Table.quotient 0 = .ok 0) ∧
      (arithmetic .division).ComputedIn (.contiguous 4 0) Table.quotient 0 := by
  have hheld : Table.quotient.Held := fun kind => by cases kind <;> decide
  have hcomputed : (arithmetic .division).ComputedIn (.contiguous 4 0) Table.quotient 0 :=
    ⟨[.ofNat 6, .ofNat 2, .ofNat 3, .ofNat 1006632961], by decide, by decide⟩
  have hg : Gadget.ofRow (arithmetic .division) (.contiguous 4 0) =
      .ok (.row (arithmetic .division) (.contiguous 4 0) : Gadget .babyBear) := rfl
  have hexact := (vanish_iff_computedIn hg nofun hheld Nat.one_pos nofun nofun).1
  exact ⟨hexact.mpr hcomputed, hcomputed⟩

end Plonkish
