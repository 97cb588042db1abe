import Mathlib.Tactic.FieldSimp
import Mathlib.Tactic.Ring
import Plonkish.Gadget.Row
import Plonkish.Proofs.Fault
import Plonkish.Proofs.Operators

/-!
# Proofs — gadgets of one row

On inputs that it admits, a gadget of one row computes all the cells of the row
(`RowKind.exists_cells`), beginning with the inputs, and its constraints vanish on them
(`RowKind.constraints_vanish`).  Arithmetic admits any two elements, except that the divisor of a
division must not be zero; logic admits as many bits as the operation has inputs.  Sums of points
are left out here: `RowKind.Admits` does not admit any inputs for them.
-/

namespace Plonkish

variable {k : BaseField} {valuation : Variable → Felt k} {w c : Nat → Expr k}

/-- An element is a bit. -/
def Felt.IsBit (a : Felt k) : Prop := a = 0 ∨ a = 1

instance (a : Felt k) : Decidable a.IsBit := inferInstanceAs (Decidable (_ ∨ _))

/-- The expressions have the entries of a list for values. -/
def Takes (w : Nat → Expr k) (valuation : Variable → Felt k) (cells : List (Felt k)) : Prop :=
  ∀ i a, cells[i]? = some a → (w i).value valuation = a

/-- A valuation that takes a list of cells takes every shorter one. -/
theorem Takes.of_prefix {cells cells' : List (Felt k)} (h : Takes w valuation cells')
    (hle : cells <+: cells') : Takes w valuation cells := by
  intro i a ha
  obtain ⟨hi, rfl⟩ := List.getElem?_eq_some_iff.mp ha
  exact h i _ (List.prefix_iff_getElem?.mp hle i hi)

/-! ### Arithmetic -/

namespace Arithmetic

variable {op : Arithmetic} {x y : Felt k} {rest : List (Felt k)}

/-- The cells of an operation can be computed, except for a division by zero, and they fill the row.
-/
theorem exists_cells (x : Felt k) (h : op = .division → y ≠ 0) :
    ∃ rest, op.cells x y = .ok rest ∧ rest.length + 2 = op.width := by
  cases op with
  | addition => exact ⟨_, rfl, rfl⟩
  | subtraction => exact ⟨_, rfl, rfl⟩
  | multiplication => exact ⟨_, rfl, rfl⟩
  | division =>
      rw [cells, Felt.inverse?, if_neg (h rfl)]
      exact ⟨_, rfl, rfl⟩
  | divisionOrZero => exact ⟨_, rfl, rfl⟩

/-- **The equations** of an operation hold of the cells it computes. -/
theorem constraints_vanish (hcells : op.cells x y = .ok rest)
    (hw : Takes w valuation (x :: y :: rest)) : ∀ e ∈ op.constraints w, e.value valuation = 0 := by
  have hx := hw 0 x rfl
  have hy := hw 1 y rfl
  cases op with
  | addition =>
      obtain rfl := Except.ok.inj hcells
      have hz := hw 2 _ rfl
      simp [constraints, hx, hy, hz]
  | subtraction =>
      obtain rfl := Except.ok.inj hcells
      have hz := hw 2 _ rfl
      simp [constraints, hx, hy, hz]
  | multiplication =>
      obtain rfl := Except.ok.inj hcells
      have hz := hw 2 _ rfl
      simp [constraints, hx, hy, hz]
  | division =>
      by_cases hzero : y = 0
      · rw [cells, Felt.inverse?, if_pos hzero] at hcells
        cases hcells
      · rw [cells, Felt.inverse?, if_neg hzero] at hcells
        obtain rfl := Except.ok.inj hcells
        have hz := hw 2 _ rfl
        have hi := hw 3 _ rfl
        simp only [constraints, List.forall_mem_cons, Expr.value_sub, Expr.value_mul,
          Expr.value_constant, hx, hy, hz, hi, Felt.inverse_eq_inv]
        refine ⟨?_, ?_, nofun⟩
        · field_simp
          ring
        · rw [mul_inv_cancel₀ hzero, sub_self]
  | divisionOrZero =>
      obtain rfl := Except.ok.inj hcells
      have hz := hw 2 _ rfl
      have hi := hw 3 _ rfl
      simp only [constraints, List.forall_mem_cons, Expr.value_sub, Expr.value_mul,
        Expr.value_constant, hx, hy, hz, hi, Felt.inverse_eq_inv]
      refine ⟨sub_self _, ?_, ?_, nofun⟩
      -- The inverse of zero is zero, and either way one of the factors vanishes.
      · rcases eq_or_ne y 0 with rfl | hne
        · rw [zero_mul]
        · rw [mul_inv_cancel₀ hne, sub_self, mul_zero]
      · rcases eq_or_ne y 0 with rfl | hne
        · rw [inv_zero, zero_mul]
        · rw [mul_inv_cancel₀ hne, sub_self, mul_zero]

theorem three_le_width (op : Arithmetic) : 3 ≤ op.width := by cases op <;> decide

/-- The constraints of an operation are built from its columns and constants. -/
theorem constraints_closed {Q : Expr k → Prop} (hQ : Expr.Closed Q) (hw : ∀ i < op.width, Q (w i)) :
    ∀ e ∈ op.constraints w, Q e := by
  have hone := hQ.constant 1
  have hx := hw 0 (Nat.zero_lt_of_lt op.three_le_width)
  have hy := hw 1 (Nat.lt_of_succ_lt op.three_le_width)
  have hz := hw 2 op.three_le_width
  cases op with
  | addition =>
      rw [constraints, List.forall_mem_singleton]
      exact hQ.sub (hQ.add hx hy) hz
  | subtraction =>
      rw [constraints, List.forall_mem_singleton]
      exact hQ.sub (hQ.sub hx hy) hz
  | multiplication =>
      rw [constraints, List.forall_mem_singleton]
      exact hQ.sub (hQ.mul hx hy) hz
  | division =>
      have hproduct := hQ.sub (hQ.mul hy (hw 3 (Nat.lt_succ_self 3))) hone
      rw [constraints, List.forall_mem_cons, List.forall_mem_singleton]
      exact ⟨hQ.sub (hQ.mul hy hz) hx, hproduct⟩
  | divisionOrZero =>
      have hi := hw 3 (Nat.lt_succ_self 3)
      have hproduct := hQ.sub (hQ.mul hy hi) hone
      rw [constraints, List.forall_mem_cons, List.forall_mem_cons, List.forall_mem_singleton]
      exact ⟨hQ.sub (hQ.mul hx hi) hz, hQ.mul hy hproduct, hQ.mul hi hproduct⟩

end Arithmetic

/-! ### Logic -/

namespace Logic

variable {op : Logic} {inputs : List (Felt k)} {r : Felt k}

/-- A connective has a result for the number of inputs that it takes. -/
theorem exists_result (h : inputs.length = op.arity) : ∃ r, op.result inputs = .ok r := by
  cases op with
  | not =>
      obtain ⟨x, rfl⟩ := List.length_eq_one_iff.mp h
      exact ⟨_, rfl⟩
  | select =>
      obtain ⟨x, y, z, rfl⟩ := List.length_eq_three.mp h
      by_cases hx : x = 0
      · exact ⟨z, by rw [result, if_pos hx]; rfl⟩
      · exact ⟨y, by rw [result, if_neg hx]; rfl⟩
  | and | or | xor | nand | nor =>
      obtain ⟨x, y, rfl⟩ := List.length_eq_two.mp h
      exact ⟨_, rfl⟩

/-- **The equation** of an operation holds of bits and the result for them. -/
theorem equation_vanishes (hlen : inputs.length = op.arity) (hbits : ∀ a ∈ inputs, a.IsBit)
    (hr : op.result inputs = .ok r) (hw : Takes w valuation (inputs ++ [r])) :
    (op.equation w).value valuation = 0 := by
  cases op with
  | not =>
      obtain ⟨x, rfl⟩ := List.length_eq_one_iff.mp hlen
      obtain rfl := Except.ok.inj hr
      simp [equation, hw 0 x rfl, hw 1 _ rfl]
  | select =>
      obtain ⟨x, y, z, rfl⟩ := List.length_eq_three.mp hlen
      simp only [equation, Expr.value_sub, Expr.value_add, Expr.value_mul, Expr.value_constant,
        hw 0 x rfl, hw 1 y rfl, hw 2 z rfl, hw 3 r rfl]
      -- The first input chooses between the other two.
      rcases hbits x List.mem_cons_self with rfl | rfl
      · rw [result, if_pos rfl] at hr
        obtain rfl := Except.ok.inj hr
        ring
      · rw [result, if_neg one_ne_zero] at hr
        obtain rfl := Except.ok.inj hr
        ring
  | and | or | xor | nand | nor =>
      obtain ⟨x, y, rfl⟩ := List.length_eq_two.mp hlen
      obtain rfl := Except.ok.inj hr
      simp [equation, disjunction, hw 0 x rfl, hw 1 y rfl, hw 2 _ rfl]

theorem equation_closed {Q : Expr k → Prop} (hQ : Expr.Closed Q) (hw : ∀ i ≤ op.arity, Q (w i)) :
    Q (op.equation w) := by
  have hone := hQ.constant 1
  have h0 : Q (w 0) := hw 0 (Nat.zero_le _)
  have h1 : Q (w 1) := hw 1 (by cases op <;> decide)
  have hproduct := hQ.mul h0 h1
  have hsum := hQ.add h0 h1
  cases op with
  | not => exact hQ.sub (hQ.sub hone h0) h1
  | select =>
      have hother := hQ.mul (hQ.sub hone h0) (hw 2 (Nat.le_succ 2))
      exact hQ.sub (hw 3 le_rfl) (hQ.add hproduct hother)
  | and => exact hQ.sub (hw 2 le_rfl) hproduct
  | or => exact hQ.sub (hw 2 le_rfl) (hQ.sub hsum hproduct)
  | xor =>
      have htwice := hQ.mul (hQ.mul (hQ.constant (.ofNat 2)) h0) h1
      exact hQ.sub (hw 2 le_rfl) (hQ.sub hsum htwice)
  | nand => exact hQ.sub (hw 2 le_rfl) (hQ.sub hone hproduct)
  | nor => exact hQ.sub (hw 2 le_rfl) (hQ.sub hone (hQ.sub hsum hproduct))

end Logic

/-! ### Sums of points -/

/-- The constraints of the addition of points are built from the row's columns and constants. -/
theorem Point.constraints_closed {Q : Expr k → Prop} (hQ : Expr.Closed Q)
    (hw : ∀ i < width, Q (w i)) : ∀ e ∈ constraints w, Q e := by
  have hone := hQ.constant 1
  have hx₀ := hw 0 (by decide)
  have hy₀ := hw 1 (by decide)
  have hx₁ := hw 2 (by decide)
  have hy₁ := hw 3 (by decide)
  have hx₂ := hw 4 (by decide)
  have hy₂ := hw 5 (by decide)
  have hslope := hw 10 (by decide)
  have hdx := hQ.sub hx₁ hx₀
  have hinverse := hQ.sub hone (hQ.mul hdx (hw 8 (by decide)))
  have hproduct := hQ.mul hx₀ hx₁
  have hdistinct := hQ.sub (hQ.mul hproduct hx₁) (hQ.mul hproduct hx₀)
  have hnotOpposite := hQ.add (hQ.mul hproduct hy₁) (hQ.mul hproduct hy₀)
  have hxSum := hQ.sub (hQ.sub (hQ.sub (hQ.mul hslope hslope) hx₀) hx₁) hx₂
  have hySum := hQ.sub (hQ.sub (hQ.mul hslope (hQ.sub hx₀ hx₂)) hy₀) hy₂
  have hfirst := hQ.sub hone (hQ.mul hx₀ (hw 6 (by decide)))
  have hsecond := hQ.sub hone (hQ.mul hx₁ (hw 7 (by decide)))
  have hopposite := hQ.sub hinverse (hQ.mul (hQ.add hy₁ hy₀) (hw 9 (by decide)))
  have hchord := hQ.sub (hQ.mul hdx hslope) (hQ.sub hy₁ hy₀)
  have htangent := hQ.sub (hQ.mul (hQ.mul (hQ.constant (.ofNat 2)) hy₀) hslope)
    (hQ.mul (hQ.mul (hQ.constant (.ofNat 3)) hx₀) hx₀)
  simp only [constraints, List.forall_mem_cons]
  exact ⟨hQ.mul hdx hchord, hQ.mul hinverse htangent, hQ.mul hdistinct hxSum,
    hQ.mul hdistinct hySum, hQ.mul hnotOpposite hxSum, hQ.mul hnotOpposite hySum,
    hQ.mul hfirst (hQ.sub hx₂ hx₁), hQ.mul hfirst (hQ.sub hy₂ hy₁),
    hQ.mul hsecond (hQ.sub hx₂ hx₀), hQ.mul hsecond (hQ.sub hy₂ hy₀),
    hQ.mul hopposite hx₂, hQ.mul hopposite hy₂, nofun⟩

/-! ### All gadgets of one row -/

namespace RowKind

variable {kind : RowKind k} {inputs cells : List (Felt k)}

/-- The inputs that a gadget is meant for, but for sums of points. -/
def Admits (kind : RowKind k) (inputs : List (Felt k)) : Prop :=
  match kind with
  | arithmetic op => ∃ x y, inputs = [x, y] ∧ (op = .division → y ≠ 0)
  | scaling _ => inputs.length = 1
  | logic op => inputs.length = op.arity ∧ ∀ a ∈ inputs, a.IsBit
  | points => False

theorem Admits.length_eq (h : kind.Admits inputs) : inputs.length = kind.arity := by
  cases kind with
  | arithmetic op =>
      obtain ⟨x, y, rfl, -⟩ := h
      rfl
  | scaling factor => exact h
  | logic op => exact h.1
  | points => exact h.elim

/-- The row of a connective is its inputs and its result. -/
theorem cells_logic {op : Logic} {r : Felt k} (hbits : ∀ a ∈ inputs, a.IsBit)
    (hr : op.result inputs = .ok r) : (logic op).cells inputs = .ok (inputs ++ [r]) := by
  have hfind : inputs.find? (fun a => a ≠ 0 ∧ a ≠ 1) = none := by
    rw [List.find?_eq_none]
    intro a ha hne
    rcases hbits a ha with rfl | rfl
    · exact (of_decide_eq_true hne).1 rfl
    · exact (of_decide_eq_true hne).2 rfl
  rw [cells, hfind, hr]
  rfl

/-- **The cells** of a gadget with inputs that it admits. -/
theorem exists_cells (h : kind.Admits inputs) :
    ∃ cells, kind.cells inputs = .ok cells ∧ cells.length = kind.width ∧ inputs <+: cells := by
  cases kind with
  | arithmetic op =>
      obtain ⟨x, y, rfl, hdivisor⟩ := h
      obtain ⟨rest, hrest, hlen⟩ := op.exists_cells x hdivisor
      refine ⟨x :: y :: rest, ?_, hlen, List.prefix_append [x, y] rest⟩
      rw [RowKind.cells, hrest]
      rfl
  | scaling factor =>
      obtain ⟨x, rfl⟩ := List.length_eq_one_iff.mp h
      exact ⟨[x, x * factor], rfl, rfl, List.prefix_append [x] _⟩
  | logic op =>
      obtain ⟨hlen, hbits⟩ := h
      obtain ⟨r, hr⟩ := op.exists_result hlen
      refine ⟨inputs ++ [r], cells_logic hbits hr, ?_, List.prefix_append inputs _⟩
      rw [List.length_append, hlen]
      rfl
  | points => exact h.elim

/-- **The constraints** of a gadget hold of the cells it computes. -/
theorem constraints_vanish (h : kind.Admits inputs) (hcells : kind.cells inputs = .ok cells)
    (hw : Takes w valuation cells)
    (hc : ∀ factor, kind = scaling factor → (c 0).value valuation = factor) :
    ∀ e ∈ kind.constraints w c, e.value valuation = 0 := by
  cases kind with
  | arithmetic op =>
      obtain ⟨x, y, rfl, -⟩ := h
      obtain ⟨rest, hrest, rfl⟩ := bind_pure_eq_ok.mp hcells
      exact Arithmetic.constraints_vanish (mapError_eq_ok.mp hrest) hw
  | scaling factor =>
      obtain ⟨x, rfl⟩ := List.length_eq_one_iff.mp h
      obtain rfl := Except.ok.inj hcells
      simp [constraints, hw 0 x rfl, hw 1 _ rfl, hc factor rfl]
  | logic op =>
      obtain ⟨hlen, hbits⟩ := h
      obtain ⟨r, hr⟩ := op.exists_result hlen
      obtain rfl := Except.ok.inj ((cells_logic hbits hr).symm.trans hcells)
      rw [constraints, List.forall_mem_singleton]
      exact Logic.equation_vanishes hlen hbits hr hw
  | points => exact h.elim

/-- The constraints are made by operators from constants and the columns that the gadget has. -/
theorem constraints_closed {Q : Expr k → Prop} (hQ : Expr.Closed Q)
    (hw : ∀ i < kind.width, Q (w i)) (hc : ∀ i < kind.constantWidth, Q (c i)) :
    ∀ e ∈ kind.constraints w c, Q e := by
  cases kind with
  | arithmetic op => exact Arithmetic.constraints_closed hQ hw
  | scaling factor =>
      rw [constraints, List.forall_mem_singleton]
      exact hQ.sub (hQ.mul (hw 0 Nat.zero_lt_two) (hc 0 Nat.one_pos)) (hw 1 Nat.one_lt_two)
  | logic op =>
      rw [constraints, List.forall_mem_singleton]
      exact Logic.equation_closed hQ fun i hi => hw i (Nat.lt_succ_of_le hi)
  | points => exact Point.constraints_closed hQ hw

end RowKind

end Plonkish
