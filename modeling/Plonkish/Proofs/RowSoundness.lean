import Mathlib.Tactic.LinearCombination
import Plonkish.Proofs.Installed

/-!
# Proofs — rows that keep the constraints

What the constraints of a gadget of one row say, whoever filled in the row.

* `Arithmetic.cells_eq_of_vanish`: the cells after the operands are the ones that the operation
  computes from them, and it does compute some.
* `RowKind.determined`: two rows with the same inputs, and the same constants, have the same result.
* `RowKind.exists_reads`: the cells of the result are read by some constraint, so they exist in an
  accepted table (`Gadget.Enforced.tryValue_result`).
-/

namespace Plonkish

variable {k : BaseField} {valuation valuation' : Variable → Felt k} {w w' c c' : Nat → Expr k}

/-! ### Arithmetic -/

/-- **The cells after the operands** are the ones that are computed from them. -/
theorem Arithmetic.cells_eq_of_vanish {op : Arithmetic}
    (h : ∀ e ∈ op.constraints w, e.value valuation = 0) :
    op.cells ((w 0).value valuation) ((w 1).value valuation) =
      .ok ((w 2).value valuation :: (List.range' 3 (op.width - 3)).map fun i =>
        (w i).value valuation) := by
  cases op with
  | addition =>
      rw [constraints, List.forall_mem_singleton, Expr.value_sub, Expr.value_add, sub_eq_zero] at h
      rw [cells, h]
      rfl
  | subtraction =>
      rw [constraints, List.forall_mem_singleton, Expr.value_sub, Expr.value_sub, sub_eq_zero] at h
      rw [cells, h]
      rfl
  | multiplication =>
      rw [constraints, List.forall_mem_singleton, Expr.value_sub, Expr.value_mul, sub_eq_zero] at h
      rw [cells, h]
      rfl
  | division =>
      simp only [constraints, List.forall_mem_cons, Expr.value_sub, Expr.value_mul,
        Expr.value_constant, sub_eq_zero] at h
      obtain ⟨hquotient, hinverse, -⟩ := h
      -- The divisor has an inverse, so it is not zero.
      have hne : (w 1).value valuation ≠ 0 := left_ne_zero_of_mul_eq_one hinverse
      have hresult : (w 2).value valuation = (w 0).value valuation * ((w 1).value valuation)⁻¹ := by
        rw [← hquotient]
        field_simp
      have hinverse' : (w 3).value valuation = ((w 1).value valuation)⁻¹ :=
        eq_inv_of_mul_eq_one_right hinverse
      rw [cells, Felt.inverse?, if_neg hne, Felt.inverse_eq_inv, hresult, ← hinverse']
      rfl
  | divisionOrZero =>
      simp only [constraints, List.forall_mem_cons, Expr.value_sub, Expr.value_mul,
        Expr.value_constant] at h
      obtain ⟨hresult, hdivisor, hinverse, -⟩ := h
      have hinverse' : (w 3).value valuation = ((w 1).value valuation)⁻¹ := by
        rcases eq_or_ne ((w 1).value valuation) 0 with hzero | hne
        · rw [hzero] at hinverse ⊢
          rw [inv_zero]
          linear_combination -hinverse
        · have hone := (mul_eq_zero.mp hdivisor).resolve_left hne
          exact eq_inv_of_mul_eq_one_right (sub_eq_zero.mp hone)
      rw [cells, Felt.inverse_eq_inv, ← hinverse', sub_eq_zero.mp hresult]
      rfl

/-! ### Logic -/

/-- **The result** is determined by the inputs, be they bits or not. -/
theorem Logic.determined {op : Logic} (h : (op.equation w).value valuation = 0)
    (h' : (op.equation w').value valuation' = 0)
    (hw : ∀ i < op.arity, (w i).value valuation = (w' i).value valuation') :
    (w op.arity).value valuation = (w' op.arity).value valuation' := by
  cases op with
  | not =>
      have h0 := hw 0 Nat.one_pos
      simp only [equation, Expr.value_sub, Expr.value_constant, h0] at h h'
      rw [arity]
      linear_combination h' - h
  | select =>
      have h0 := hw 0 (by decide)
      have h1 := hw 1 (by decide)
      have h2 := hw 2 (by decide)
      simp only [equation, Expr.value_sub, Expr.value_add, Expr.value_mul,
        Expr.value_constant, h0, h1,
        h2] at h h'
      rw [arity]
      linear_combination h - h'
  | and | or | xor | nand | nor =>
      have h0 := hw 0 (by decide)
      have h1 := hw 1 (by decide)
      simp only [equation, disjunction, Expr.value_sub, Expr.value_add, Expr.value_mul,
        Expr.value_constant, h0, h1] at h h'
      rw [arity]
      linear_combination h - h'

/-! ### All gadgets of one row -/

namespace RowKind

variable {kind : RowKind k}

/-- **The result** of a row is determined by its inputs and constants, but for sums of points. -/
theorem determined (hkind : kind ≠ points) (h : ∀ e ∈ kind.constraints w c, e.value valuation = 0)
    (h' : ∀ e ∈ kind.constraints w' c', e.value valuation' = 0)
    (hw : ∀ i < kind.arity, (w i).value valuation = (w' i).value valuation')
    (hc : ∀ i < kind.constantWidth, (c i).value valuation = (c' i).value valuation') :
    ∀ i ∈ kind.results, (w i).value valuation = (w' i).value valuation' := by
  cases kind with
  | arithmetic op =>
      have hcells := Arithmetic.cells_eq_of_vanish h
      have hcells' := Arithmetic.cells_eq_of_vanish h'
      rw [hw 0 Nat.two_pos, hw 1 Nat.one_lt_two] at hcells
      have hsame := List.head_eq_of_cons_eq (Except.ok.inj (hcells.symm.trans hcells'))
      exact List.forall_mem_singleton.mpr hsame
  | scaling factor =>
      rw [constraints, List.forall_mem_singleton, Expr.value_sub, Expr.value_mul,
        sub_eq_zero] at h h'
      refine List.forall_mem_singleton.mpr ?_
      rw [← h, ← h', hw 0 Nat.one_pos, hc 0 Nat.one_pos]
  | logic op =>
      rw [constraints, List.forall_mem_singleton] at h h'
      exact List.forall_mem_singleton.mpr (Logic.determined h h' hw)
  | points => exact absurd rfl hkind

/-- The cells of the result are read by the constraints. -/
theorem exists_reads {v u : Nat → Variable} {i : Nat} (hi : i ∈ kind.results) :
    ∃ e ∈ kind.constraints (fun j => (v j : Expr k)) (fun j => (u j : Expr k)),
      v i ∈ e.occurrences := by
  cases kind with
  | arithmetic op =>
      obtain rfl := List.mem_singleton.mp hi
      cases op with
      | addition | subtraction | multiplication | divisionOrZero =>
          exact ⟨_, List.mem_cons_self, by simp⟩
      | division => exact ⟨_, List.mem_cons_self, by simp [Expr.occurrences_mul]⟩
  | scaling factor =>
      obtain rfl := List.mem_singleton.mp hi
      exact ⟨_, List.mem_cons_self, by simp⟩
  | logic op =>
      obtain rfl := List.mem_singleton.mp hi
      cases op <;> exact ⟨_, List.mem_cons_self, by simp [Logic.equation, Logic.arity]⟩
  | points =>
      -- Each coordinate of the sum stands in a difference, which is multiplied with another one.
      have hproduct : ∀ e e₁ e₂ : Expr k, ∀ j,
          v j ∈ ((e - e₁) * ((v j : Expr k) - e₂)).occurrences := by
        intro e e₁ e₂ j
        rw [Expr.occurrences_mul rfl rfl]
        simp
      rcases List.mem_pair.mp hi with rfl | rfl
      · exact ⟨_, List.mem_of_getElem? (i := 6) rfl, hproduct _ _ _ 4⟩
      · exact ⟨_, List.mem_of_getElem? (i := 7) rfl, hproduct _ _ _ 5⟩

end RowKind

/-! ### Rows of an accepted table -/

section Rows

variable {t : Table k} {kind : RowKind k} {l : Layout} {input : List Variable} {start : Nat}

namespace Gadget.Enforced

theorem row_vanish (h : (row kind l).Enforced t input start) :
    ∀ e ∈ kind.constraintsOn l, e.value (t.valueAt start) = 0 := by
  have hfirst := h.vanish (r := 0) Nat.one_pos rfl
  exact hfirst

/-- **The cells of the result** exist. -/
theorem tryValue_result (h : (row kind l).Enforced t input start) {i : Nat}
    (hi : i ∈ kind.results) :
    t.tryValue (l.cellVariable i start) = .ok (t.cellAt (l.cell i start)) := by
  have hrow : start < t.rows := Nat.lt_of_succ_le h.exist
  obtain ⟨e, he, hv⟩ := RowKind.exists_reads hi
  have hcell : t.Has ((Variable.relativeTo .witness (l.witness.getD i 0) 0).cellOf t.rows start) :=
    h.reads Nat.one_pos rfl e he _ hv
  rw [Variable.cellOf, Variable.rowOf_relativeTo_zero _ _ hrow] at hcell
  exact (Layout.tryValue_cellVariable (Nat.lt_of_succ_le h.rows_le)).mpr ⟨hcell, rfl⟩

end Gadget.Enforced

end Rows

end Plonkish
