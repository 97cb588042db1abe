import Mathlib.Algebra.BigOperators.Intervals
import Plonkish.Proofs.BitSoundness

/-!
# Proofs — composing numbers of bits

The place of a bit in the number it is a digit of depends on the order the bits are given in
(`BitOrder.place`).  A running sum adds the digits up with the power of two for their place
(`digitSum_arrange`).

* `Gadget.composition_sound`: in an accepted table, the output of a composition is the sum of the
  inputs, each with the power of two for its place, whoever filled the table in.  If the rows are
  checked, the inputs are bits.
-/

namespace Plonkish

variable {k : BaseField} {t : Table k} {input : List Variable} {start : Nat}

open Build (Runs)

/-! ### Places -/

/-- The place of the bit numbered `i` of `n`, counted from the least significant one. -/
def BitOrder.place (order : BitOrder) (n i : Nat) : Nat :=
  match order with
  | mostSignificantFirst => n - 1 - i
  | leastSignificantFirst => i

/-- The sum after some digits, the least significant one first. -/
theorem digitSum_reverse (digits : List (Felt k)) :
    digitSum 0 digits.reverse = ∑ i ∈ Finset.range digits.length, digits.getD i 0 * 2 ^ i := by
  induction digits with
  | nil => rfl
  | cons d digits ih =>
      rw [List.reverse_cons, digitSum_append, ih, List.length_cons, Finset.sum_range_succ']
      show _ + _ + d = (∑ i ∈ Finset.range digits.length, digits.getD i 0 * 2 ^ (i + 1)) + d * 2 ^ 0
      simp only [pow_succ, ← mul_assoc]
      rw [← Finset.sum_mul]
      ring

/-- **The sum after some digits** is the sum of the digits with the powers of two for their places.
-/
theorem digitSum_arrange (order : BitOrder) (digits : List (Felt k)) :
    digitSum 0 (order.arrange digits) =
      ∑ i ∈ Finset.range digits.length, digits.getD i 0 * 2 ^ order.place digits.length i := by
  cases order with
  | leastSignificantFirst => exact digitSum_reverse digits
  | mostSignificantFirst =>
      -- The same sum, with the summands in the opposite order.
      have hsum := digitSum_reverse digits.reverse
      rw [List.reverse_reverse, List.length_reverse, ← Finset.sum_range_reflect] at hsum
      refine hsum.trans (Finset.sum_congr rfl fun i hi => ?_)
      have hi' : i < digits.length := Finset.mem_range.mp hi
      have hlast : digits.length - 1 - i < digits.reverse.length := by
        rw [List.length_reverse]
        omega
      have hdigit : digits.length - 1 - (digits.length - 1 - i) = i := by omega
      rw [List.getD_eq_getElem _ _ hlast, List.getD_eq_getElem _ _ hi', List.getElem_reverse]
      simp only [hdigit, BitOrder.place]

/-! ### The inputs of a composition -/

/-- The inputs of a composition are the digits that the rows hold. -/
theorem Gadget.Enforced.mapM_input {order : BitOrder} {b : BitRows}
    (h : (bits (.composition order) b).Enforced t input start) :
    input.mapM t.tryValue = .ok (order.arrange (b.digitsAt t start)) := by
  have hrows : start + b.rows ≤ 2 ^ 31 := h.rows_le
  have hcopied := h.forall₂_copied
  rw [inputCells, BitRows.bitVariables, ← BitOrder.map_arrange,
    List.forall₂_map_right_iff] at hcopied
  rw [mapM_eq_ok, BitRows.digitsAt, ← BitOrder.map_arrange, List.forall₂_map_right_iff]
  obtain ⟨hlen, hpairs⟩ := List.forall₂_iff_zip.mp hcopied
  refine List.forall₂_iff_zip.mpr ⟨hlen, fun {v slot} hpair => ?_⟩
  obtain ⟨x, hv, hslot⟩ := hpairs hpair
  obtain ⟨-, hr⟩ := BitRows.slot_lt (order.mem_arrange.mp (List.of_mem_zip hpair).2)
  obtain ⟨-, rfl⟩ := (Layout.tryValue_cellVariable (by omega)).mp hslot
  exact hv

namespace Gadget

variable {l : Layout} {n : Nat} {g : Gadget k} {a a' b : Assembly k} {outs : List Variable}

/-- **Soundness of compositions**: where a table is accepted that asks for an instance, the output
is the sum of the inputs with the powers of two for their places.  If they are checked, the inputs
are bits. -/
theorem composition_sound {order : BitOrder} {checked : Bool}
    (hg : composition l n order checked = .ok g) (hreg : a.circuit.Registered)
    (hlen : input.length = n) (hrun : Runs (g.build input start) a outs a') (hkept : a'.KeptIn b)
    (hheld : b.table.Held) (haccepted : b.circuit.violations b.table = .ok []) :
    ∃ values, input.mapM b.table.tryValue = .ok values ∧
      outs.mapM b.table.tryValue =
        .ok [∑ i ∈ Finset.range n, values.getD i 0 * 2 ^ order.place n i] ∧
      (checked = true → ∀ x ∈ values, x.IsBit) := by
  obtain ⟨rows, hrows, rfl⟩ := bind_pure_eq_ok.mp hg
  obtain ⟨rfl, rfl⟩ := BitRows.of_new hrows
  have hmade : (bits (.composition order) rows : Gadget k).Made := trivial
  have hcells : input.length =
      ((bits (.composition order) rows : Gadget k).inputCells start).length := by
    rw [hlen, inputCells, BitOrder.length_arrange, BitRows.bitVariables, List.length_map,
      List.length_range']
  obtain ⟨henforced, rfl⟩ := enforced_of_build hmade hreg hcells hrun hkept hheld haccepted
  set digits := rows.digitsAt b.table start
  have hcount : (order.arrange digits).length = rows.bits := by
    rw [BitOrder.length_arrange, BitRows.length_digitsAt]
  refine ⟨order.arrange digits, henforced.mapM_input, ?_, fun hchecked x hx =>
    henforced.isBit hchecked x (order.mem_arrange.mp hx)⟩
  have hsum := digitSum_arrange order (order.arrange digits)
  rw [BitOrder.arrange_arrange, hcount] at hsum
  rw [outputCells, ← hsum]
  exact mapM_eq_ok.mpr (.cons henforced.tryValue_sum .nil)

end Gadget

/-- A table of two rows that composes three and five, the digits of eleven if they need not be bits.
-/
def Table.eleven : Table .goldilocks where
  rows := 2
  usableRows := 2
  regions :=
    { witness := ⟨2, 3, #[0, .ofNat 3, .ofNat 3, .ofNat 3, .ofNat 5, .ofNat 11], rfl⟩
      publicInput := ⟨2, 1, #[.ofNat 3, .ofNat 5], rfl⟩
      constant := .zero _ 2 0
      selector := .zero _ 2 0 }
  height_eq kind := by cases kind <;> rfl

/-- The public inputs, three and five. -/
def Table.elevenInput : List Variable := [⟨.publicInput, 0, 0, false⟩, ⟨.publicInput, 0, 1, false⟩]

theorem Layout.three_le_contiguous : 3 ≤ (contiguous 3 0).witness.length := by decide

theorem BitRows.two_le_maxBits : 2 ≤ maxBits := by decide

/-- The rows that compose two bits, without a check. -/
def BitRows.twoBits : BitRows :=
  ⟨"bit_composition", .contiguous 3 0, 2, false, Layout.three_le_contiguous, Nat.two_pos,
    two_le_maxBits⟩

theorem Table.vanish_eleven (first : Bool) : ∀ e ∈ BitRows.twoBits.constraints first,
    e.value (Table.eleven.valueAt (if first then 0 else 1)) = 0 := by
  have hbits : List.range' 1 BitRows.twoBits.perRow = [1] := rfl
  have hpadding : BitRows.twoBits.padding = 0 := rfl
  refine BitRows.twoBits.forall_constraints.mpr ⟨?_, ?_, ?_, nofun⟩
  all_goals
    simp only [BitRows.rowSum, BitRows.column, hbits, hpadding, List.foldl_cons, List.foldl_nil,
      Expr.value_sub, Expr.value_add, Expr.value_mul, Expr.value_constant, Expr.value_variable]
    revert first
    decide

theorem Gadget.composition_sound_eleven :
    ∃ g outs a, composition (.contiguous 3 0) 2 .mostSignificantFirst false = .ok g ∧
      Runs (g.build Table.elevenInput 0) ⟨.empty, .eleven⟩ outs a ∧
      a.circuit.violations a.table = .ok [] ∧
      ∃ values, Table.elevenInput.mapM a.table.tryValue = .ok values ∧
        outs.mapM a.table.tryValue = .ok [∑ i ∈ Finset.range 2,
          values.getD i 0 * 2 ^ BitOrder.mostSignificantFirst.place 2 i] ∧
        (false = true → ∀ x ∈ values, x.IsBit) := by
  have hl : Table.eleven.HasLayout (.contiguous 3 0) :=
    Table.hasLayout_contiguous (by decide) (by decide)
  have hheld : Table.eleven.Held := fun kind => by cases kind <;> decide
  have hinput : ∀ v ∈ Table.elevenInput, Table.eleven.HoldsAbsolute v ∧
      v.kind ≠ .selector := by decide
  have hvanish : ∀ r < 2, ∀ constraints,
      (bits (.composition .mostSignificantFirst) .twoBits : Gadget .goldilocks).constraintLists[
        min r 1]? = some constraints →
      ∀ e ∈ constraints, e.value (Table.eleven.valueAt (0 + r)) = 0 := by
    intro r hr constraints hgate e he
    interval_cases r
    · obtain rfl := Option.some.inj hgate
      exact Table.vanish_eleven true e he
    · obtain rfl := Option.some.inj hgate
      exact Table.vanish_eleven false e he
  have hmade : (bits (.composition .mostSignificantFirst) .twoBits : Gadget .goldilocks).Made :=
    trivial
  have hrows : 0 + (bits (.composition .mostSignificantFirst) .twoBits : Gadget .goldilocks).rows ≤
      Table.eleven.rows := by decide
  obtain ⟨a, hrun, -, haccepted⟩ := exists_accepted hmade hl hrows (by decide) hinput rfl
    (by decide)
    (Table.noneEnabled_of_width rfl) rfl hvanish (by decide)
  exact ⟨_, _, a, rfl, hrun, haccepted,
    composition_sound (l := .contiguous 3 0)
      (n := 2) rfl Circuit.registered_empty rfl hrun (.refl a)
      ((keeps_build _ _ _ hrun).held hheld) haccepted⟩

end Plonkish
