import Plonkish.Proofs.Agreement
import Plonkish.Proofs.Substitution

/-!
# Proofs — absolute variables as polynomials

The polynomial of a variable is its column, turned by the rotation; whether the variable is relative
plays no part in it.  So the polynomials of a constraint have at the point of a row the value of the
constraint in which every variable counts its rotation from that row, `Variable.asRelative`
(`Expr.polynomials_asRelative`).  For an absolute variable this is the fixed cell in the first row,
and another cell of the column in the rows below (`Expr.polynomials_asRelative_fixed`).
-/

noncomputable section

namespace Plonkish

variable {k : BaseField}

/-! ### Variables that count from the anchor row -/

namespace Variable

/-- The variable that counts its rotation from the anchor row, whatever this one does. -/
def asRelative (v : Variable) : Variable := { v with relative := true }

/-- From the first row, a rotation that is a row of the table leads to that row. -/
theorem rowOf_asRelative_zero {v : Variable} {rows : Nat}
    (h : v.relative = false → 0 ≤ v.rotation.toInt ∧ v.rotation.toInt < rows) :
    v.asRelative.rowOf rows 0 = v.rowOf rows 0 := by
  unfold rowOf
  split <;> split
  · rfl
  · next hrel =>
      obtain ⟨hnonneg, hlt⟩ := h (Bool.not_eq_true _ ▸ hrel)
      show turnedRow rows 0 v.rotation.toInt = _
      rw [turnedRow, Int.ofNat_zero, Int.zero_add, Int.emod_eq_of_lt hnonneg hlt]
  · next hrel _ => exact absurd rfl hrel
  · next hrel _ => exact absurd rfl hrel

end Variable

namespace Table

variable {t : Table k}

theorem Holds.asRelative {v : Variable} (h : t.Holds v) : t.HoldsRelative v.asRelative :=
  ⟨rfl, h.index_lt⟩

theorem valueAt_asRelative_zero {v : Variable} (h : t.Holds v) :
    t.valueAt 0 v.asRelative = t.valueAt 0 v :=
  congrArg (fun row => t.cellAt ⟨v.kind, v.index.toNat, row⟩)
    (Variable.rowOf_asRelative_zero h.row_lt)

end Table

/-! ### At the point of a row -/

namespace Expr

variable {t : Table k} {d : Domain k} {e : Expr k} {row : Nat} {p : Poly k} {q : PointValues k}

/-- The polynomial of a constraint does not look at whether its variables are relative. -/
theorem eval_polynomialOver_asRelative (hd : d.size = t.rows)
    (h : ∀ v ∈ e.occurrences, t.Holds v) (hr : row < t.rows) :
    (e.polynomialOver t d).eval (d.element row) =
      (e.mapVariables Variable.asRelative).value (t.valueAt row) := by
  rw [value_mapVariables]
  exact valueOf_related (Algebra.related_eval (d.element row)) fun v hv =>
    Table.eval_variablePolynomial hd (h v hv).asRelative hr

/-- **Absolute variables are turned too**: at the point of a row, both polynomial forms of a
constraint over proper words have the value of the constraint whose variables all count from that
row.  In the first row this is the value of the constraint itself. -/
theorem polynomials_asRelative (hproper : e.Proper) (hd : Domain.ofSize k t.rows = .ok d)
    (hvars : ∀ v ∈ e.occurrences, t.Holds v) (hrow : row < t.rows)
    (hp : (do e.polynomial (← t.interpolated d)) = .ok p)
    (hq : (do e.pointValues (← t.pointValues)) = .ok q) :
    ∃ x y, (e.mapVariables Variable.asRelative).atRow t row = .ok x.scalar ∧
      e.atRow t row = .ok y.scalar ∧ p.evaluate (d.element row) = x ∧
      q.evaluate (d.element row) = .ok x ∧ (row = 0 → x = y) := by
  have hrows := Table.rows_le hd
  have hsize := Domain.size_of_ofSize hd
  have hmapped : ∀ v ∈ (e.mapVariables Variable.asRelative).occurrences, t.Holds v := by
    intro u hu
    obtain ⟨v, hv, rfl⟩ := mem_occurrences_mapVariables.mp hu
    exact (hvars v hv).asRelative.holds
  obtain ⟨cols, hcols, hp⟩ := bind_eq_ok.mp hp
  obtain ⟨cols', hcols', hq⟩ := bind_eq_ok.mp hq
  obtain ⟨_, hrep⟩ := represents_of_pointValues hsize hcols' hq
  refine ⟨(e.mapVariables Variable.asRelative).value (t.valueAt row), e.value (t.valueAt row),
    ?_, ?_, ?_, ?_, ?_⟩
  · rw [atRow_eq hmapped hrow hrows, scalar_eq_scalar_value (hproper.mapVariables _)]
  · rw [atRow_eq hvars hrow hrows, scalar_eq_scalar_value hproper]
  · rw [Poly.evaluate_eq, toPolynomial_of_polynomial hcols hp,
      eval_polynomialOver_asRelative hsize hvars hrow]
  · rw [hrep.evaluate_eq, eval_polynomialOver_asRelative hsize hvars hrow]
  · rintro rfl
    rw [value_mapVariables]
    exact value_congr fun v hv => Table.valueAt_asRelative_zero (hvars v hv)

/-- The second cell of the first witness column. -/
def fixed : Expr .babyBear := ofCell ⟨.witness, 0, 1, false⟩

/-- In the second of two rows, the first cell is taken for the fixed one. -/
theorem polynomials_asRelative_fixed : fixed.Proper ∧
    ∃ p q, (do fixed.polynomial (← Table.squares.interpolated .twoPoints)) = .ok p ∧
      (do fixed.pointValues (← Table.squares.pointValues)) = .ok q ∧
      fixed.atRow .squares 1 = .ok (9 : Felt .babyBear).scalar ∧
      p.evaluate (Domain.twoPoints.element 1) = 3 ∧
      q.evaluate (Domain.twoPoints.element 1) = .ok 3 := by
  have hvars : ∀ v ∈ fixed.occurrences, Table.squares.Holds v := by
    intro v hv
    obtain rfl := List.mem_singleton.mp hv
    exact ⟨by decide, fun _ => by decide⟩
  have hproper : fixed.Proper := proper_ofCell _
  obtain ⟨x, y, hx, hy, hp, hq, -⟩ := polynomials_asRelative (d := .twoPoints) hproper rfl hvars
    (show 1 < Table.squares.rows by decide) rfl rfl
  have hmapped : fixed.mapVariables Variable.asRelative = ofCell ⟨.witness, 0, 1, true⟩ :=
    congrArg term (Term.ext rfl (Variable.sort_of_pairwise (List.pairwise_singleton _ _)))
  rw [hmapped] at hx
  obtain rfl : 3 = x := Felt.scalar_injective (Except.ok.inj hx)
  obtain rfl : 9 = y := Felt.scalar_injective (Except.ok.inj hy)
  exact ⟨hproper, _, _, rfl, rfl, hy, hp, hq⟩

end Expr

end Plonkish

end
